import Mathlib.Logic.Function.Basic
import Mathlib.Data.List.Infix
import Mathlib.Tactic.Common

/-!
# The ids of values and the PHIs that read them

A function is converted one instruction after another. Ids are handed out on first use, so a PHI
can read the id of a value before the value is emitted; a value that is given another id afterwards
leaves a note, and one pass at the end applies the notes to the PHIs.
-/

namespace DxilSpirv.Converter

/-- What the id of a value comes from when it has none yet. -/
inductive ValueKind
  /-- A constant, which the module has one id for. -/
  | constant (id : Nat)
  /-- An undefined value, made where it is first used. -/
  | undef
  /-- A constant expression, stamped out at every use. -/
  | expression
  /-- An instruction or an argument. -/
  | other
  deriving DecidableEq

/-- A PHI instruction: the value it defines, and a value for each predecessor. -/
structure PhiNode where
  value : Nat
  incoming : List (Nat × Nat)
  deriving DecidableEq

/-- An incoming id of an emitted PHI, with the value that it was read for. -/
structure ReadIncoming where
  block : Nat
  value : Nat
  id : Nat
  deriving DecidableEq

/-- An emitted PHI. -/
structure EmittedPhi where
  id : Nat
  incoming : List ReadIncoming
  deriving DecidableEq

/-- What the conversion knows about values. -/
structure Values where
  valueMap : Nat → Option Nat
  phiIncomingRewrite : Nat → Option Nat
  nextId : Nat
  /-- The ids that an operation, a constant or a PHI defines. -/
  emitted : List Nat
  phis : List EmittedPhi

section Code

variable (kind : Nat → ValueKind)

/-- `get_id_for_value`. -/
def getIdForValue (value : Nat) (s : Values) : Nat × Values :=
  match kind value with
  | .expression => (s.nextId, { s with nextId := s.nextId + 1, emitted := s.nextId :: s.emitted })
  | .constant id =>
    match s.valueMap value with
    | some id => (id, s)
    | none => (id, { s with
        valueMap := Function.update s.valueMap value (some id), emitted := id :: s.emitted })
  | .undef =>
    match s.valueMap value with
    | some id => (id, s)
    | none => (s.nextId, { s with
        valueMap := Function.update s.valueMap value (some s.nextId)
        nextId := s.nextId + 1
        emitted := s.nextId :: s.emitted })
  | .other =>
    match s.valueMap value with
    | some id => (id, s)
    | none => (s.nextId, { s with
        valueMap := Function.update s.valueMap value (some s.nextId), nextId := s.nextId + 1 })

/-- `rewrite_value`. -/
def rewriteValue (value id : Nat) (s : Values) : Values :=
  match s.valueMap value with
  | some old =>
    if old ≠ id then
      { s with
        phiIncomingRewrite := Function.update s.phiIncomingRewrite old (some id)
        valueMap := Function.update s.valueMap value (some id) }
    else s
  | none => { s with valueMap := Function.update s.valueMap value (some id) }

local instance lawfulBEqEdge : LawfulBEq (Nat × Nat) := inferInstance

/-- The incoming values of a PHI of `bb` that are kept: not over a pruned edge, from a block that
exists, and only one for each block. -/
def phiIncoming (registered : Nat → Bool) (skipPhiPreds : List (Nat × Nat)) (bb : Nat)
    (incoming : List (Nat × Nat)) : List (Nat × Nat) :=
  incoming.foldl (fun kept p =>
    if (p.1, bb) ∈ skipPhiPreds then kept
    else if registered p.1 = true ∧ p.1 ∉ kept.map (·.1) then kept ++ [p]
    else kept) []

/-- Read the ids of the incoming values. -/
def readIncoming : List (Nat × Nat) → Values → List ReadIncoming × Values
  | [], s => ([], s)
  | p :: incoming, s =>
    let read := getIdForValue kind p.2 s
    let rest := readIncoming incoming read.2
    (⟨p.1, p.2, read.1⟩ :: rest.1, rest.2)

/-- The end of `emit_phi_instruction`: a PHI with one incoming value is that value. -/
def finishPhi (value phiId : Nat) (incoming : List ReadIncoming) (s : Values) : Option Values :=
  match incoming with
  | [] => none
  | [i] => some (rewriteValue value i.id s)
  | _ => some { s with phis := s.phis ++ [⟨phiId, incoming⟩], emitted := phiId :: s.emitted }

/-- `emit_phi_instruction`. -/
def emitPhiInstruction (registered : Nat → Bool) (skipPhiPreds : List (Nat × Nat)) (bb : Nat)
    (phi : PhiNode) (s : Values) : Option Values :=
  match phi.incoming with
  | [p] =>
    let read := getIdForValue kind p.2 s
    some (rewriteValue phi.value read.1 read.2)
  | incoming =>
    let phiId := getIdForValue kind phi.value s
    let read := readIncoming kind (phiIncoming registered skipPhiPreds bb incoming) phiId.2
    finishPhi phi.value phiId.1 read.1 read.2

/-- What emitting the instructions of a function does to the ids, step by step. -/
inductive Step
  /-- Some operation uses the value. -/
  | use (value : Nat)
  /-- An operation is added whose result is the value, or has a fresh id. -/
  | emit (value : Option Nat)
  /-- The value is given another id. -/
  | rewrite (value id : Nat)
  /-- The value is forgotten, to be emitted again where it was sunk to. -/
  | sink (value : Nat)
  | phi (registered : Nat → Bool) (skipPhiPreds : List (Nat × Nat)) (bb : Nat) (phi : PhiNode)

/-- One step of the conversion. -/
def step (s : Values) : Step → Option Values
  | .use value => some (getIdForValue kind value s).2
  | .emit (some value) =>
    let read := getIdForValue kind value s
    some { read.2 with emitted := read.1 :: read.2.emitted }
  | .emit none => some { s with nextId := s.nextId + 1, emitted := s.nextId :: s.emitted }
  | .rewrite value id => some (rewriteValue value id s)
  | .sink value => some { s with valueMap := Function.update s.valueMap value none }
  | .phi registered skipPhiPreds bb phi => emitPhiInstruction kind registered skipPhiPreds bb phi s

/-- All steps of a function. -/
def run : Values → List Step → Option Values
  | s, [] => some s
  | s, e :: es => (step kind s e).bind fun s' => run s' es

end Code

namespace Values

/-- The id that the pass at the end leaves in place of an id. -/
def rewritten (s : Values) (id : Nat) : Nat := (s.phiIncomingRewrite id).getD id

/-- The pass at the end of `convert_function`. -/
def rewritePhis (s : Values) : Values :=
  { s with phis := s.phis.map fun phi =>
      { phi with incoming := phi.incoming.map fun i => { i with id := s.rewritten i.id } } }

/-- Some PHI read the id for the value. -/
def Reads (s : Values) (value id : Nat) : Prop :=
  ∃ phi ∈ s.phis, ∃ i ∈ phi.incoming, i.value = value ∧ i.id = id

/-- Were the pass made now, every PHI would hold the ids of the values it reads. -/
def PhisCurrent (s : Values) : Prop :=
  ∀ phi ∈ s.rewritePhis.phis, ∀ i ∈ phi.incoming, s.valueMap i.value = some i.id

end Values

variable {kind : Nat → ValueKind} {s t : Values} {value id : Nat}

/-- Nothing was forgotten and no PHI changed. -/
structure Extends (s t : Values) : Prop where
  valueMap : ∀ v x, s.valueMap v = some x → t.valueMap v = some x
  phiIncomingRewrite : t.phiIncomingRewrite = s.phiIncomingRewrite
  phis : t.phis = s.phis
  emitted : ∀ x ∈ s.emitted, x ∈ t.emitted

/-- A state extends itself. -/
theorem Extends.refl (s : Values) : Extends s s := ⟨fun _ _ h => h, rfl, rfl, fun _ h => h⟩

/-- Extensions compose. -/
theorem Extends.trans {r : Values} (h : Extends s t) (h' : Extends t r) : Extends s r where
  valueMap v x hv := h'.valueMap v x (h.valueMap v x hv)
  phiIncomingRewrite := h'.phiIncomingRewrite.trans h.phiIncomingRewrite
  phis := h'.phis.trans h.phis
  emitted x hx := h'.emitted x (h.emitted x hx)

/-- The same reads are recorded. -/
theorem Extends.reads_iff (h : Extends s t) : t.Reads value id ↔ s.Reads value id := by
  rw [Values.Reads, Values.Reads, h.phis]

/-- The same rewrites are recorded. -/
theorem Extends.rewritten (h : Extends s t) : t.rewritten id = s.rewritten id := by
  rw [Values.rewritten, Values.rewritten, h.phiIncomingRewrite]

/-- A value without an id gets one, the others keep theirs. -/
private theorem extends_update {s t : Values} {value id : Nat} (hnone : s.valueMap value = none)
    (hmap : t.valueMap = Function.update s.valueMap value (some id))
    (hrewrite : t.phiIncomingRewrite = s.phiIncomingRewrite) (hphis : t.phis = s.phis)
    (hemitted : ∀ x ∈ s.emitted, x ∈ t.emitted) : Extends s t where
  valueMap v x h := by
    have hne : v ≠ value := by
      rintro rfl
      rw [hnone] at h
      cases h
    rw [hmap, Function.update_of_ne hne, h]
  phiIncomingRewrite := hrewrite
  phis := hphis
  emitted := hemitted

/-- To get the id of a value only adds ids. -/
theorem getIdForValue_extends : Extends s (getIdForValue kind value s).2 := by
  unfold getIdForValue
  cases kind value with
  | expression => exact ⟨fun _ _ h => h, rfl, rfl, fun _ h => List.mem_cons_of_mem _ h⟩
  | constant id =>
    cases h : s.valueMap value with
    | some x => exact Extends.refl s
    | none => exact extends_update h rfl rfl rfl fun _ h => List.mem_cons_of_mem _ h
  | undef =>
    cases h : s.valueMap value with
    | some x => exact Extends.refl s
    | none => exact extends_update h rfl rfl rfl fun _ h => List.mem_cons_of_mem _ h
  | other =>
    cases h : s.valueMap value with
    | some x => exact Extends.refl s
    | none => exact extends_update h rfl rfl rfl fun _ h => h

/-- The id that is handed out is the value's from now on, unless it is an expression. -/
theorem getIdForValue_valueMap (h : kind value ≠ .expression) :
    (getIdForValue kind value s).2.valueMap value = some (getIdForValue kind value s).1 := by
  unfold getIdForValue
  cases hkind : kind value with
  | expression => exact absurd hkind h
  | constant id =>
    cases hmap : s.valueMap value with
    | some x => exact hmap
    | none => exact Function.update_self ..
  | undef =>
    cases hmap : s.valueMap value with
    | some x => exact hmap
    | none => exact Function.update_self ..
  | other =>
    cases hmap : s.valueMap value with
    | some x => exact hmap
    | none => exact Function.update_self ..

/-- To read the values of a PHI only adds ids. -/
theorem readIncoming_extends {incoming : List (Nat × Nat)} :
    Extends s (readIncoming kind incoming s).2 := by
  induction incoming generalizing s with
  | nil => exact Extends.refl s
  | cons p incoming ih => exact getIdForValue_extends.trans ih

/-- Every id that is read is recorded for a value of the list. -/
theorem readIncoming_value {incoming : List (Nat × Nat)} {i : ReadIncoming}
    (h : i ∈ (readIncoming kind incoming s).1) : (i.block, i.value) ∈ incoming := by
  induction incoming generalizing s with
  | nil => cases h
  | cons p incoming ih =>
    rcases List.mem_cons.mp h with rfl | h
    · exact List.mem_cons_self ..
    · exact List.mem_cons_of_mem _ (ih h)

/-- Nothing is kept that the PHI does not have. -/
theorem phiIncoming_subset {registered : Nat → Bool} {skip : List (Nat × Nat)} {bb : Nat}
    {incoming : List (Nat × Nat)} {p : Nat × Nat}
    (h : p ∈ phiIncoming registered skip bb incoming) : p ∈ incoming := by
  have hfold : ∀ (l kept : List (Nat × Nat)), p ∈ l.foldl (fun kept p =>
      if (p.1, bb) ∈ skip then kept
      else if registered p.1 = true ∧ p.1 ∉ kept.map (·.1) then kept ++ [p] else kept) kept →
      p ∈ kept ∨ p ∈ l := by
    intro l
    induction l with
    | nil => exact fun _ h => Or.inl h
    | cons q l ih =>
      intro kept h
      rw [List.foldl_cons] at h
      rcases ih _ h with h | h
      · split at h
        · exact Or.inl h
        · split at h
          · rcases List.mem_append.mp h with h | h
            · exact Or.inl h
            · exact Or.inr (List.mem_singleton.mp h ▸ List.mem_cons_self ..)
          · exact Or.inl h
      · exact Or.inr (List.mem_cons_of_mem _ h)
  rcases hfold incoming [] h with h | h
  · cases h
  · exact h

/-- The pass leaves the current ids exactly when every id that was read becomes the current one. -/
theorem phisCurrent_iff :
    s.PhisCurrent ↔ ∀ v x, s.Reads v x → s.valueMap v = some (s.rewritten x) := by
  constructor
  · rintro h v x ⟨phi, hphi, i, hi, rfl, rfl⟩
    exact h _ (List.mem_map_of_mem hphi) _ (List.mem_map_of_mem hi)
  · intro h phi hphi i hi
    obtain ⟨phi, hmem, rfl⟩ := List.mem_map.mp hphi
    obtain ⟨i, himem, rfl⟩ := List.mem_map.mp hi
    exact h i.value i.id ⟨phi, hmem, i, himem, rfl, rfl⟩

/-- PHIs that are current stay so when ids are added. -/
theorem phisCurrent_of_extends (h : Extends s t) (hs : s.PhisCurrent) : t.PhisCurrent := by
  rw [phisCurrent_iff] at hs ⊢
  intro v x hread
  rw [h.rewritten]
  exact h.valueMap v _ (hs v x (h.reads_iff.mp hread))

/-- A rewrite that every PHI can follow: what read the value read the id it had, and what else
read that id has the new one already. -/
def RewriteFollowed (s : Values) (value id : Nat) : Prop :=
  ∀ old, s.valueMap value = some old → old ≠ id → ∀ v x, s.Reads v x →
    (v = value → x = old) ∧ (x = old → v = value ∨ s.valueMap v = some id)

/-- Ids that a PHI can read for good: the notes made so far leave each to be its value's. -/
def ReadsLast (s : Values) (incoming : List ReadIncoming) : Prop :=
  ∀ i ∈ incoming, s.valueMap i.value = some (s.rewritten i.id)

/-- A rewrite leaves the PHIs as they were read. -/
theorem rewriteValue_phis : (rewriteValue value id s).phis = s.phis := by
  unfold rewriteValue
  split
  · split
    · rfl
    · rfl
  · rfl

/-- A rewrite keeps the PHIs current exactly when they can follow it. -/
theorem rewriteValue_phisCurrent (hs : s.PhisCurrent) :
    (rewriteValue value id s).PhisCurrent ↔ RewriteFollowed s value id := by
  have hreads : ∀ v x, (rewriteValue value id s).Reads v x ↔ s.Reads v x := by
    intro v x
    rw [Values.Reads, Values.Reads, rewriteValue_phis]
  rw [phisCurrent_iff] at hs ⊢
  simp only [hreads]
  cases hmap : s.valueMap value with
  | none =>
    have hfollow : RewriteFollowed s value id := by
      intro old hold
      rw [hmap] at hold
      cases hold
    apply iff_of_true _ hfollow
    intro v x hread
    have hne : v ≠ value := by
      rintro rfl
      have h := hs v x hread
      rw [hmap] at h
      cases h
    have hval : (rewriteValue value id s).valueMap v = s.valueMap v := by
      rw [rewriteValue, hmap]
      exact Function.update_of_ne hne ..
    have hrew : (rewriteValue value id s).rewritten x = s.rewritten x := by
      rw [rewriteValue, hmap]
      rfl
    rw [hval, hrew, hs v x hread]
  | some old =>
    by_cases hold : old = id
    · have hsame : rewriteValue value id s = s := by
        unfold rewriteValue
        rw [hmap]
        exact if_neg (not_not_intro hold)
      apply iff_of_true
      · rw [hsame]
        exact hs
      · intro old' hold' hne
        rw [hmap] at hold'
        exact absurd (Option.some.inj hold' ▸ hold) hne
    · have hval : (rewriteValue value id s).valueMap =
          Function.update s.valueMap value (some id) := by
        unfold rewriteValue
        rw [hmap]
        simp only [if_pos hold]
      have hrew : ∀ x, (rewriteValue value id s).rewritten x =
          if x = old then id else s.rewritten x := by
        intro x
        unfold rewriteValue
        rw [hmap]
        simp only [if_pos hold, Values.rewritten, Function.update_apply]
        split
        · rfl
        · rfl
      constructor
      · intro h old' hold' hne v x hread
        rw [hmap] at hold'
        obtain rfl := Option.some.inj hold'
        have hv := h v x hread
        rw [hval, hrew] at hv
        constructor
        · rintro rfl
          by_contra hx
          rw [Function.update_self, if_neg hx, ← hs v x hread, hmap] at hv
          exact hold (Option.some.inj hv).symm
        · intro hx
          by_cases hvv : v = value
          · exact Or.inl hvv
          · rw [Function.update_of_ne hvv, if_pos hx] at hv
            exact Or.inr hv
      · intro h v x hread
        obtain ⟨h1, h2⟩ := h old hmap hold v x hread
        rw [hval, hrew]
        by_cases hvv : v = value
        · rw [hvv, Function.update_self, if_pos (h1 hvv)]
        · rw [Function.update_of_ne hvv]
          by_cases hx : x = old
          · rw [if_pos hx]
            exact (h2 hx).resolve_left hvv
          · rw [if_neg hx, hs v x hread]

/-- What the end of a PHI asks of the ids it read. -/
def FinishFollowed (s : Values) (value : Nat) (incoming : List ReadIncoming) : Prop :=
  match incoming with
  | [] => True
  | [i] => RewriteFollowed s value i.id
  | _ => ReadsLast s incoming

/-- A PHI is added to the ones before it. -/
theorem finishPhi_phisCurrent {phiId : Nat} {incoming : List ReadIncoming} (hs : s.PhisCurrent)
    (h : finishPhi value phiId incoming s = some t) :
    t.PhisCurrent ↔ FinishFollowed s value incoming := by
  cases incoming with
  | nil => cases h
  | cons i incoming =>
    cases incoming with
    | nil =>
      obtain rfl := Option.some.inj h
      exact rewriteValue_phisCurrent hs
    | cons j incoming =>
      obtain rfl := Option.some.inj h
      rw [phisCurrent_iff] at hs ⊢
      change (∀ v x, Values.Reads _ v x → s.valueMap v = some (s.rewritten x)) ↔
        ReadsLast s (i :: j :: incoming)
      constructor
      · intro hall k hk
        exact hall k.value k.id
          ⟨_, List.mem_append_right _ (List.mem_singleton_self _), k, hk, rfl, rfl⟩
      · rintro hlast v x ⟨phi, hphi, k, hk, rfl, rfl⟩
        rcases List.mem_append.mp hphi with hphi | hphi
        · exact hs k.value k.id ⟨phi, hphi, k, hk, rfl, rfl⟩
        · obtain rfl := List.mem_singleton.mp hphi
          exact hlast k hk

/-- What a step asks of the state before it. -/
def Keeps (kind : Nat → ValueKind) (s : Values) : Step → Prop
  | .use _ => True
  | .emit _ => True
  | .rewrite value id => RewriteFollowed s value id
  | .sink value => ∀ x, ¬ s.Reads value x
  | .phi registered skipPhiPreds bb phi =>
    match phi.incoming with
    | [p] =>
      let read := getIdForValue kind p.2 s
      RewriteFollowed read.2 phi.value read.1
    | incoming =>
      let phiId := getIdForValue kind phi.value s
      let read := readIncoming kind (phiIncoming registered skipPhiPreds bb incoming) phiId.2
      FinishFollowed read.2 phi.value read.1

/-- A PHI keeps the PHIs current exactly when its step keeps them. -/
theorem emitPhiInstruction_phisCurrent {registered : Nat → Bool} {skip : List (Nat × Nat)}
    {bb : Nat} {phi : PhiNode} (hs : s.PhisCurrent)
    (h : emitPhiInstruction kind registered skip bb phi s = some t) :
    t.PhisCurrent ↔ Keeps kind s (.phi registered skip bb phi) := by
  cases phi with
  | mk value incoming =>
    have hmany : ∀ l : List (Nat × Nat), finishPhi value (getIdForValue kind value s).1
        (readIncoming kind l (getIdForValue kind value s).2).1
        (readIncoming kind l (getIdForValue kind value s).2).2 = some t →
        (t.PhisCurrent ↔ FinishFollowed
          (readIncoming kind l (getIdForValue kind value s).2).2 value
          (readIncoming kind l (getIdForValue kind value s).2).1) := fun l hl =>
      finishPhi_phisCurrent
        (phisCurrent_of_extends (getIdForValue_extends.trans readIncoming_extends) hs) hl
    cases incoming with
    | nil => exact hmany (phiIncoming registered skip bb []) h
    | cons p incoming =>
      cases incoming with
      | nil =>
        obtain rfl := Option.some.inj h
        exact rewriteValue_phisCurrent (phisCurrent_of_extends getIdForValue_extends hs)
      | cons q incoming => exact hmany (phiIncoming registered skip bb (p :: q :: incoming)) h

/-- A step keeps the PHIs current exactly when it meets its condition. -/
theorem step_phisCurrent {e : Step} (hs : s.PhisCurrent) (h : step kind s e = some t) :
    t.PhisCurrent ↔ Keeps kind s e := by
  cases e with
  | use value =>
    obtain rfl := Option.some.inj h
    exact iff_of_true (phisCurrent_of_extends getIdForValue_extends hs) trivial
  | emit value =>
    apply iff_of_true _ trivial
    cases value with
    | none =>
      obtain rfl := Option.some.inj h
      exact hs
    | some value =>
      obtain rfl := Option.some.inj h
      have hget : Extends s (getIdForValue kind value s).2 := getIdForValue_extends
      apply phisCurrent_of_extends (hget.trans _) hs
      exact ⟨fun _ _ h => h, rfl, rfl, fun _ h => List.mem_cons_of_mem _ h⟩
  | rewrite value id =>
    obtain rfl := Option.some.inj h
    exact rewriteValue_phisCurrent hs
  | sink value =>
    obtain rfl := Option.some.inj h
    rw [phisCurrent_iff] at hs ⊢
    change (∀ v x, s.Reads v x → Function.update s.valueMap value none v = some (s.rewritten x)) ↔
      ∀ x, ¬ s.Reads value x
    constructor
    · intro hall x hread
      have hv := hall value x hread
      rw [Function.update_self] at hv
      cases hv
    · intro hno v x hread
      have hne : v ≠ value := by
        rintro rfl
        exact hno x hread
      rw [Function.update_of_ne hne, hs v x hread]
  | phi registered skip bb phi => exact emitPhiInstruction_phisCurrent hs h

/-- Every step of the run meets its condition. -/
def StepsKeep (kind : Nat → ValueKind) : Values → List Step → Prop
  | _, [] => True
  | s, e :: es => Keeps kind s e ∧ ∀ s', step kind s e = some s' → StepsKeep kind s' es

/-- The PHIs stay current all along a run exactly when every step meets its condition. -/
theorem stepsKeep_iff {es : List Step} (hs : s.PhisCurrent) (h : run kind s es = some t) :
    StepsKeep kind s es ↔
      ∀ pre, pre <+: es → ∀ r, run kind s pre = some r → r.PhisCurrent := by
  induction es generalizing s with
  | nil =>
    apply iff_of_true trivial
    intro pre hpre r hr
    rw [List.prefix_nil.mp hpre] at hr
    obtain rfl := Option.some.inj hr
    exact hs
  | cons e es ih =>
    obtain ⟨s', hstep, hrun⟩ := Option.bind_eq_some_iff.mp h
    have hone := step_phisCurrent hs hstep
    constructor
    · rintro ⟨hkeep, hkeeps⟩ pre hpre r hr
      cases pre with
      | nil =>
        obtain rfl := Option.some.inj hr
        exact hs
      | cons e' pre =>
        obtain ⟨rfl, htail⟩ := List.cons_prefix_cons.mp hpre
        obtain ⟨s'', hstep', hr⟩ := Option.bind_eq_some_iff.mp hr
        rw [hstep] at hstep'
        obtain rfl := Option.some.inj hstep'
        exact (ih (hone.mpr hkeep) hrun).mp (hkeeps s' hstep) pre htail r hr
    · intro hall
      have hcurrent : s'.PhisCurrent := by
        apply hall [e] (List.cons_prefix_cons.mpr ⟨rfl, List.nil_prefix⟩) s'
        change (step kind s e).bind (fun s' => some s') = some s'
        rw [hstep]
        rfl
      refine ⟨hone.mp hcurrent, ?_⟩
      intro s'' hstep'
      rw [hstep] at hstep'
      obtain rfl := Option.some.inj hstep'
      apply (ih hcurrent hrun).mpr
      intro pre hpre r hr
      apply hall (e :: pre) (List.cons_prefix_cons.mpr ⟨rfl, hpre⟩) r
      change (step kind s e).bind (fun s' => run kind s' pre) = some r
      rw [hstep]
      exact hr

variable {v : Nat}

/-- The id of the value is one that an operation defines. -/
def Settled (s : Values) (v : Nat) : Prop := ∃ x, s.valueMap v = some x ∧ x ∈ s.emitted

/-- Values are only given ids that are defined already. -/
def Emits (kind : Nat → ValueKind) (s : Values) : Step → Prop
  | .rewrite _ id => id ∈ s.emitted
  | .phi registered skipPhiPreds bb phi =>
    match phi.incoming with
    | [p] =>
      let read := getIdForValue kind p.2 s
      read.1 ∈ read.2.emitted
    | incoming =>
      let phiId := getIdForValue kind phi.value s
      let read := readIncoming kind (phiIncoming registered skipPhiPreds bb incoming) phiId.2
      ∀ i, read.1 = [i] → i.id ∈ read.2.emitted
  | _ => True

/-- The steps after which a value has an id that is defined. -/
def Settles (v : Nat) : Step → Prop
  | .emit (some value) => value = v
  | .rewrite value _ => value = v
  | .phi _ _ _ phi => phi.value = v
  | _ => False

/-- A settled value stays settled when ids are added. -/
theorem Extends.settled (h : Extends s t) (hs : Settled s v) : Settled t v := by
  obtain ⟨x, hx, hmem⟩ := hs
  exact ⟨x, h.valueMap v x hx, h.emitted x hmem⟩

/-- A value that is given a defined id is settled, and the others stay so. -/
theorem settled_rewriteValue (hid : id ∈ s.emitted) (h : Settled s v ∨ value = v) :
    Settled (rewriteValue value id s) v := by
  have hemitted : (rewriteValue value id s).emitted = s.emitted := by
    unfold rewriteValue
    split
    · split
      · rfl
      · rfl
    · rfl
  have hself : (rewriteValue value id s).valueMap value = some id := by
    unfold rewriteValue
    split
    · rename_i old hold
      split
      · exact Function.update_self ..
      · rename_i heq
        rw [hold, not_not.mp heq]
    · exact Function.update_self ..
  by_cases hv : value = v
  · subst hv
    exact ⟨id, hself, by rw [hemitted]; exact hid⟩
  · obtain ⟨x, hx, hmem⟩ := h.resolve_right hv
    refine ⟨x, ?_, by rw [hemitted]; exact hmem⟩
    unfold rewriteValue
    split
    · split
      · exact (Function.update_of_ne (Ne.symm hv) ..).trans hx
      · exact hx
    · exact (Function.update_of_ne (Ne.symm hv) ..).trans hx

/-- A PHI settles the value it defines. -/
theorem settled_finishPhi {phiId : Nat} {incoming : List ReadIncoming}
    (hid : ∀ i, incoming = [i] → i.id ∈ s.emitted) (hphi : s.valueMap value = some phiId)
    (h : finishPhi value phiId incoming s = some t) (hv : Settled s v ∨ value = v) :
    Settled t v := by
  cases incoming with
  | nil => cases h
  | cons i incoming =>
    cases incoming with
    | nil =>
      obtain rfl := Option.some.inj h
      exact settled_rewriteValue (hid i rfl) hv
    | cons j incoming =>
      obtain rfl := Option.some.inj h
      rcases hv with ⟨x, hx, hmem⟩ | rfl
      · exact ⟨x, hx, List.mem_cons_of_mem _ hmem⟩
      · exact ⟨phiId, hphi, List.mem_cons_self ..⟩

/-- A value is settled by the steps that settle it, and no step but sinking it undoes that. -/
theorem settled_step {e : Step} (hphi : ∀ registered skip bb phi,
      e = .phi registered skip bb phi → kind phi.value ≠ .expression)
    (hkind : kind v ≠ .expression) (hemits : Emits kind s e) (h : step kind s e = some t)
    (hv : Settled s v ∧ e ≠ .sink v ∨ Settles v e) : Settled t v := by
  cases e with
  | use value =>
    obtain rfl := Option.some.inj h
    exact getIdForValue_extends.settled (hv.resolve_right id).1
  | emit value =>
    cases value with
    | none =>
      obtain rfl := Option.some.inj h
      obtain ⟨x, hx, hmem⟩ := (hv.resolve_right id).1
      exact ⟨x, hx, List.mem_cons_of_mem _ hmem⟩
    | some value =>
      obtain rfl := Option.some.inj h
      have hext : Extends s (getIdForValue kind value s).2 := getIdForValue_extends
      rcases hv with hv | rfl
      · obtain ⟨x, hx, hmem⟩ := hext.settled hv.1
        exact ⟨x, hx, List.mem_cons_of_mem _ hmem⟩
      · exact ⟨_, getIdForValue_valueMap hkind, List.mem_cons_self ..⟩
  | rewrite value id =>
    obtain rfl := Option.some.inj h
    exact settled_rewriteValue hemits (hv.imp_left (·.1))
  | sink value =>
    obtain rfl := Option.some.inj h
    obtain ⟨⟨x, hx, hmem⟩, hne⟩ := hv.resolve_right id
    have hv : v ≠ value := fun h => hne (h ▸ rfl)
    exact ⟨x, (Function.update_of_ne hv ..).trans hx, hmem⟩
  | phi registered skip bb phi =>
    have hexpr := hphi registered skip bb phi rfl
    have hv : Settled s v ∨ phi.value = v := hv.imp_left (·.1)
    cases phi with
    | mk value incoming =>
      have hmany : ∀ l : List (Nat × Nat),
          (∀ i, (readIncoming kind l (getIdForValue kind value s).2).1 = [i] →
            i.id ∈ (readIncoming kind l (getIdForValue kind value s).2).2.emitted) →
          finishPhi value (getIdForValue kind value s).1
            (readIncoming kind l (getIdForValue kind value s).2).1
            (readIncoming kind l (getIdForValue kind value s).2).2 = some t → Settled t v := by
        intro l hl ht
        have hext : Extends s (getIdForValue kind value s).2 := getIdForValue_extends
        exact settled_finishPhi hl
          (readIncoming_extends.valueMap _ _ (getIdForValue_valueMap hexpr)) ht
          (hv.imp_left fun h => (hext.trans readIncoming_extends).settled h)
      cases incoming with
      | nil => exact hmany (phiIncoming registered skip bb []) hemits h
      | cons p incoming =>
        cases incoming with
        | nil =>
          obtain rfl := Option.some.inj h
          exact settled_rewriteValue hemits (hv.imp_left getIdForValue_extends.settled)
        | cons q incoming =>
          exact hmany (phiIncoming registered skip bb (p :: q :: incoming)) hemits h

/-- Every step of the run gives values defined ids only. -/
def StepsEmit (kind : Nat → ValueKind) : Values → List Step → Prop
  | _, [] => True
  | s, e :: es => Emits kind s e ∧ ∀ s', step kind s e = some s' → StepsEmit kind s' es

/-- PHI instructions are no constant expressions. -/
def PhisAreInstructions (kind : Nat → ValueKind) (es : List Step) : Prop :=
  ∀ registered skip bb phi, .phi registered skip bb phi ∈ es → kind phi.value ≠ .expression

/-- The value is settled by some step and not sunk after it. -/
def SettledBy (es : List Step) (v : Nat) : Prop :=
  ∃ pre e post, es = pre ++ e :: post ∧ Settles v e ∧ Step.sink v ∉ post

/-- A settled value stays settled to the end. -/
theorem settled_run {es : List Step} (hphis : PhisAreInstructions kind es)
    (hkind : kind v ≠ .expression) (hemits : StepsEmit kind s es) (h : run kind s es = some t)
    (hv : Settled s v ∧ Step.sink v ∉ es ∨ SettledBy es v) : Settled t v := by
  induction es generalizing s with
  | nil =>
    obtain rfl := Option.some.inj h
    rcases hv with hv | ⟨pre, e, post, hsplit, -⟩
    · exact hv.1
    · simp at hsplit
  | cons e es ih =>
    obtain ⟨s', hstep, hrun⟩ := Option.bind_eq_some_iff.mp h
    have hphi : ∀ registered skip bb phi,
        e = .phi registered skip bb phi → kind phi.value ≠ .expression :=
      fun registered skip bb phi he => hphis registered skip bb phi (he ▸ List.mem_cons_self ..)
    apply ih (fun registered skip bb phi he =>
      hphis registered skip bb phi (List.mem_cons_of_mem _ he)) (hemits.2 s' hstep) hrun
    rcases hv with ⟨hv, hno⟩ | ⟨pre, e', post, hsplit, hsettles, hno⟩
    · rw [List.mem_cons, not_or] at hno
      exact Or.inl ⟨settled_step hphi hkind hemits.1 hstep (Or.inl ⟨hv, Ne.symm hno.1⟩), hno.2⟩
    · cases pre with
      | nil =>
        obtain ⟨rfl, rfl⟩ := List.cons.inj hsplit
        exact Or.inl ⟨settled_step hphi hkind hemits.1 hstep (Or.inr hsettles), hno⟩
      | cons e'' pre =>
        obtain ⟨rfl, rfl⟩ := List.cons.inj hsplit
        exact Or.inr ⟨pre, e', post, rfl, hsettles, hno⟩

/-- A value that is made where its id is first asked for. -/
def MadeOnUse (kind : Nat → ValueKind) (v : Nat) : Prop :=
  (∃ id, kind v = .constant id) ∨ (kind v = .undef)

/-- Constants and undefined values have defined ids only. -/
def MadeEmitted (kind : Nat → ValueKind) (s : Values) : Prop :=
  ∀ v, MadeOnUse kind v → ∀ x, s.valueMap v = some x → x ∈ s.emitted

/-- A new id is that of a value made on use only when it is defined. -/
private theorem madeEmitted_update (hs : MadeEmitted kind s)
    (hmap : t.valueMap = Function.update s.valueMap value (some id))
    (hid : MadeOnUse kind value → id ∈ t.emitted) (hemitted : ∀ x ∈ s.emitted, x ∈ t.emitted) :
    MadeEmitted kind t := by
  intro v hv x hx
  rw [hmap] at hx
  by_cases hvv : v = value
  · subst hvv
    rw [Function.update_self] at hx
    exact Option.some.inj hx ▸ hid hv
  · rw [Function.update_of_ne hvv] at hx
    exact hemitted x (hs v hv x hx)

/-- To get the id of a value keeps every id emitted. -/
theorem getIdForValue_madeEmitted (hs : MadeEmitted kind s) :
    MadeEmitted kind (getIdForValue kind value s).2 := by
  unfold getIdForValue
  cases hkind : kind value with
  | expression => exact fun v hv x hx => List.mem_cons_of_mem _ (hs v hv x hx)
  | constant id =>
    cases hmap : s.valueMap value with
    | some x => exact hs
    | none =>
      apply madeEmitted_update hs rfl
      · exact fun _ => List.mem_cons_self ..
      · exact fun _ h => List.mem_cons_of_mem _ h
  | undef =>
    cases hmap : s.valueMap value with
    | some x => exact hs
    | none =>
      apply madeEmitted_update hs rfl
      · exact fun _ => List.mem_cons_self ..
      · exact fun _ h => List.mem_cons_of_mem _ h
  | other =>
    cases hmap : s.valueMap value with
    | some x => exact hs
    | none =>
      apply madeEmitted_update hs rfl
      · rintro (⟨id, h⟩ | h)
        · rw [hkind] at h
          cases h
        · rw [hkind] at h
          cases h
      · exact fun _ h => h

/-- To read the values of a PHI keeps every id emitted. -/
theorem readIncoming_madeEmitted {incoming : List (Nat × Nat)} (hs : MadeEmitted kind s) :
    MadeEmitted kind (readIncoming kind incoming s).2 := by
  induction incoming generalizing s with
  | nil => exact hs
  | cons p incoming ih => exact ih (getIdForValue_madeEmitted hs)

/-- A rewrite to an emitted id keeps every id emitted. -/
theorem rewriteValue_madeEmitted (hs : MadeEmitted kind s) (hid : id ∈ s.emitted) :
    MadeEmitted kind (rewriteValue value id s) := by
  unfold rewriteValue
  split
  · split
    · exact madeEmitted_update hs rfl (fun _ => hid) fun _ h => h
    · exact hs
  · exact madeEmitted_update hs rfl (fun _ => hid) fun _ h => h

/-- A step that emits what it maps keeps every id emitted. -/
theorem step_madeEmitted {e : Step} (hs : MadeEmitted kind s) (hemits : Emits kind s e)
    (h : step kind s e = some t) : MadeEmitted kind t := by
  cases e with
  | use value =>
    obtain rfl := Option.some.inj h
    exact getIdForValue_madeEmitted hs
  | emit value =>
    cases value with
    | none =>
      obtain rfl := Option.some.inj h
      exact fun v hv x hx => List.mem_cons_of_mem _ (hs v hv x hx)
    | some value =>
      obtain rfl := Option.some.inj h
      exact fun v hv x hx => List.mem_cons_of_mem _ (getIdForValue_madeEmitted hs v hv x hx)
  | rewrite value id =>
    obtain rfl := Option.some.inj h
    exact rewriteValue_madeEmitted hs hemits
  | sink value =>
    obtain rfl := Option.some.inj h
    intro v hv x hx
    by_cases hvv : v = value
    · subst hvv
      change Function.update s.valueMap v none v = some x at hx
      rw [Function.update_self] at hx
      cases hx
    · exact hs v hv x ((Function.update_of_ne hvv ..).symm.trans hx)
  | phi registered skip bb phi =>
    cases phi with
    | mk value incoming =>
      have hmany : ∀ l : List (Nat × Nat),
          (∀ i, (readIncoming kind l (getIdForValue kind value s).2).1 = [i] →
            i.id ∈ (readIncoming kind l (getIdForValue kind value s).2).2.emitted) →
          finishPhi value (getIdForValue kind value s).1
            (readIncoming kind l (getIdForValue kind value s).2).1
            (readIncoming kind l (getIdForValue kind value s).2).2 = some t →
          MadeEmitted kind t := by
        intro l hl ht
        have hget : MadeEmitted kind (getIdForValue kind value s).2 := getIdForValue_madeEmitted hs
        have hread : MadeEmitted kind (readIncoming kind l (getIdForValue kind value s).2).2 :=
          readIncoming_madeEmitted hget
        revert hl ht hread
        generalize readIncoming kind l (getIdForValue kind value s).2 = read
        intro hl ht hread
        unfold finishPhi at ht
        split at ht
        · cases ht
        · rename_i i heq
          obtain rfl := Option.some.inj ht
          exact rewriteValue_madeEmitted hread (hl i heq)
        · obtain rfl := Option.some.inj ht
          exact fun v hv x hx => List.mem_cons_of_mem _ (hread v hv x hx)
      cases incoming with
      | nil => exact hmany (phiIncoming registered skip bb []) hemits h
      | cons p incoming =>
        cases incoming with
        | nil =>
          obtain rfl := Option.some.inj h
          exact rewriteValue_madeEmitted (getIdForValue_madeEmitted hs) hemits
        | cons q incoming =>
          exact hmany (phiIncoming registered skip bb (p :: q :: incoming)) hemits h

/-- A run of such steps keeps every id emitted. -/
theorem run_madeEmitted {es : List Step} (hs : MadeEmitted kind s) (hemits : StepsEmit kind s es)
    (h : run kind s es = some t) : MadeEmitted kind t := by
  induction es generalizing s with
  | nil =>
    obtain rfl := Option.some.inj h
    exact hs
  | cons e es ih =>
    obtain ⟨s', hstep, hrun⟩ := Option.bind_eq_some_iff.mp h
    exact ih (step_madeEmitted hs hemits.1 hstep) (hemits.2 s' hstep) hrun

variable {x : Nat}

/-- A PHI of the run that has the value among its incoming ones. -/
def HasIncoming (es : List Step) (v : Nat) : Prop :=
  ∃ registered skip bb phi, Step.phi registered skip bb phi ∈ es ∧ ∃ p ∈ phi.incoming, p.2 = v

/-- A finished PHI reads nothing but its incoming values. -/
theorem reads_of_finishPhi {value phiId : Nat} {incoming : List ReadIncoming}
    (h : finishPhi value phiId incoming s = some t) (hread : t.Reads v x) :
    s.Reads v x ∨ ∃ i ∈ incoming, i.value = v := by
  unfold finishPhi at h
  split at h
  · cases h
  · obtain rfl := Option.some.inj h
    rw [Values.Reads, rewriteValue_phis] at hread
    exact Or.inl hread
  · obtain rfl := Option.some.inj h
    obtain ⟨phi, hphi, i, hi, hv, hx⟩ := hread
    rcases List.mem_append.mp hphi with hphi | hphi
    · exact Or.inl ⟨phi, hphi, i, hi, hv, hx⟩
    · obtain rfl := List.mem_singleton.mp hphi
      exact Or.inr ⟨i, hi, hv⟩

/-- Only PHI instructions read ids for good, and only those of their own incoming values. -/
theorem reads_of_step {e : Step} (h : step kind s e = some t) (hread : t.Reads v x) :
    s.Reads v x ∨ HasIncoming [e] v := by
  cases e with
  | use value =>
    obtain rfl := Option.some.inj h
    exact Or.inl (getIdForValue_extends.reads_iff.mp hread)
  | emit value =>
    cases value with
    | none =>
      obtain rfl := Option.some.inj h
      exact Or.inl hread
    | some value =>
      obtain rfl := Option.some.inj h
      have hext : Extends s (getIdForValue kind value s).2 := getIdForValue_extends
      exact Or.inl (hext.reads_iff.mp hread)
  | rewrite value id =>
    obtain rfl := Option.some.inj h
    rw [Values.Reads, rewriteValue_phis] at hread
    exact Or.inl hread
  | sink value =>
    obtain rfl := Option.some.inj h
    exact Or.inl hread
  | phi registered skip bb phi =>
    cases phi with
    | mk value incoming =>
      have hmany : finishPhi value (getIdForValue kind value s).1
            (readIncoming kind (phiIncoming registered skip bb incoming)
              (getIdForValue kind value s).2).1
            (readIncoming kind (phiIncoming registered skip bb incoming)
              (getIdForValue kind value s).2).2 = some t →
          s.Reads v x ∨ HasIncoming [.phi registered skip bb ⟨value, incoming⟩] v := by
        intro ht
        have hext : Extends s (getIdForValue kind value s).2 := getIdForValue_extends
        rcases reads_of_finishPhi ht hread with hread | ⟨i, hi, rfl⟩
        · exact Or.inl ((hext.trans readIncoming_extends).reads_iff.mp hread)
        · exact Or.inr ⟨registered, skip, bb, _, List.mem_singleton_self _, (i.block, i.value),
            phiIncoming_subset (readIncoming_value hi), rfl⟩
      cases incoming with
      | nil => exact hmany h
      | cons p incoming =>
        cases incoming with
        | nil =>
          obtain rfl := Option.some.inj h
          rw [Values.Reads, rewriteValue_phis] at hread
          exact Or.inl (getIdForValue_extends.reads_iff.mp hread)
        | cons q incoming => exact hmany h

/-- What a run reads is an incoming value of one of its PHIs. -/
theorem reads_of_run {es : List Step} (h : run kind s es = some t) (hread : t.Reads v x) :
    s.Reads v x ∨ HasIncoming es v := by
  induction es generalizing s with
  | nil =>
    obtain rfl := Option.some.inj h
    exact Or.inl hread
  | cons e es ih =>
    obtain ⟨s', hstep, hrun⟩ := Option.bind_eq_some_iff.mp h
    rcases ih hrun with hread | ⟨registered, skip, bb, phi, hmem, hp⟩
    · rcases reads_of_step hstep hread with hread | ⟨registered, skip, bb, phi, hmem, hp⟩
      · exact Or.inl hread
      · obtain rfl := List.mem_singleton.mp hmem
        exact Or.inr ⟨registered, skip, bb, phi, List.mem_cons_self .., hp⟩
    · exact Or.inr ⟨registered, skip, bb, phi, List.mem_cons_of_mem _ hmem, hp⟩

/-- After a conversion whose steps meet their conditions the PHIs are current, and the converse
holds of the PHIs all along the conversion. Where moreover values are only given defined ids and
every value that a PHI reads is made on use or settled, no PHI keeps an undefined id. -/
theorem convertFunction_phis {kind : Nat → ValueKind} {s t : Values} {es : List Step}
    (hstart : s.phis = []) (hmade : MadeEmitted kind s) (h : run kind s es = some t) :
    (StepsKeep kind s es ↔ ∀ pre, pre <+: es → ∀ r, run kind s pre = some r → r.PhisCurrent) ∧
      (StepsKeep kind s es → StepsEmit kind s es → PhisAreInstructions kind es →
        (∀ v, HasIncoming es v → MadeOnUse kind v ∨ kind v = .other ∧ SettledBy es v) →
        ∀ phi ∈ t.rewritePhis.phis, ∀ i ∈ phi.incoming,
          t.valueMap i.value = some i.id ∧ i.id ∈ t.emitted) := by
  have hnone : ∀ v x, ¬ s.Reads v x := by
    rintro v x ⟨phi, hphi, -⟩
    rw [hstart] at hphi
    cases hphi
  have hs : s.PhisCurrent := phisCurrent_iff.mpr fun v x hread => absurd hread (hnone v x)
  have hiff := stepsKeep_iff hs h
  refine ⟨hiff, ?_⟩
  intro hkeep hemit hphis hincoming phi hphi i hi
  have hvalue := hiff.mp hkeep es (List.prefix_refl es) t h phi hphi i hi
  refine ⟨hvalue, ?_⟩
  obtain ⟨phi, hmem, rfl⟩ := List.mem_map.mp hphi
  obtain ⟨j, hj, rfl⟩ := List.mem_map.mp hi
  have hread : t.Reads j.value j.id := ⟨phi, hmem, j, hj, rfl, rfl⟩
  rcases hincoming j.value ((reads_of_run h hread).resolve_left (hnone _ _)) with
    honuse | ⟨hother, hsettled⟩
  · exact run_madeEmitted hmade hemit h j.value honuse _ hvalue
  · have hkind : kind j.value ≠ .expression := by
      rw [hother]
      exact ValueKind.noConfusion
    obtain ⟨x, hx, hdefined⟩ := settled_run hphis hkind hemit h (Or.inr hsettled)
    change t.valueMap j.value = some (t.rewritten j.id) at hvalue
    rw [hx] at hvalue
    exact Option.some.inj hvalue ▸ hdefined

/-- Nothing is known at the start. -/
def noValues : Values := ⟨fun _ => none, fun _ => none, 10, [], []⟩

/-- The constant 0, which is value 1; values 2 and 3 are instructions. -/
def loopKinds : Nat → ValueKind
  | 1 => .constant 5
  | _ => .other

/-- The PHI of a loop header, value 2, over the constant and a load at the end of the loop. -/
def loadPhi : Step := .phi (fun _ => true) [] 1 ⟨2, [(0, 1), (1, 3)]⟩

/-- A loop whose constant buffer load is bitcast and then narrowed: the load has the id of the
instruction, and both casts rewrite it. -/
def castTwice : List Step :=
  [loadPhi, .emit (some 3), .emit none, .rewrite 3 12, .use 3, .emit none, .rewrite 3 13]

/-- The PHI is left with the id of the bitcast. -/
theorem castTwice_phi_not_current : ∃ t, run loopKinds noValues castTwice = some t ∧
    t.valueMap 3 = some 13 ∧ t.rewritePhis.phis = [⟨10, [⟨0, 1, 5⟩, ⟨1, 3, 12⟩]⟩] ∧
    ¬ t.PhisCurrent := by
  refine ⟨_, rfl, rfl, rfl, ?_⟩
  intro h
  have hload := h _ (List.mem_singleton_self _) ⟨1, 3, 12⟩
    (List.mem_cons_of_mem _ (List.mem_singleton_self _))
  exact absurd hload (by decide)

/-- The same load with the bitcast only. -/
def castOnce : List Step := [loadPhi, .emit (some 3), .emit none, .rewrite 3 12]

/-- One cast keeps the PHIs of its run current. -/
theorem castOnce_keeps : StepsKeep loopKinds noValues castOnce := by
  refine ⟨?_, ?_⟩
  · intro i hi
    rcases List.mem_cons.mp hi with rfl | hi
    · rfl
    · obtain rfl := List.mem_singleton.mp hi
      rfl
  · rintro _ ⟨⟩
    refine ⟨trivial, ?_⟩
    rintro _ ⟨⟩
    refine ⟨trivial, ?_⟩
    rintro _ ⟨⟩
    refine ⟨?_, fun _ _ => trivial⟩
    rintro old ⟨⟩ - v x ⟨phi, hphi, i, hi, rfl, rfl⟩
    obtain rfl := List.mem_singleton.mp hphi
    rcases List.mem_cons.mp hi with rfl | hi
    · exact ⟨fun h => absurd h (by decide), fun h => absurd h (by decide)⟩
    · obtain rfl := List.mem_singleton.mp hi
      exact ⟨fun _ => rfl, fun _ => Or.inl rfl⟩

/-- The cast is emitted before the rewrite to it. -/
theorem castOnce_emits : StepsEmit loopKinds noValues castOnce := by
  refine ⟨?_, ?_⟩
  · intro i hi
    cases hi
  · rintro _ ⟨⟩
    refine ⟨trivial, ?_⟩
    rintro _ ⟨⟩
    refine ⟨trivial, ?_⟩
    rintro _ ⟨⟩
    exact ⟨List.mem_cons_self .., fun _ _ => trivial⟩

/-- The values that the PHI reads are a constant and the load. -/
theorem castOnce_incoming (v : Nat) (h : HasIncoming castOnce v) :
    MadeOnUse loopKinds v ∨ loopKinds v = .other ∧ SettledBy castOnce v := by
  obtain ⟨registered, skip, bb, phi, hmem, p, hp, rfl⟩ := h
  have hphi : phi = ⟨2, [(0, 1), (1, 3)]⟩ := by
    simp only [castOnce, loadPhi, List.mem_cons, reduceCtorEq, List.not_mem_nil, or_false,
      Step.phi.injEq] at hmem
    exact hmem.2.2.2
  subst hphi
  rcases List.mem_cons.mp hp with rfl | hp
  · exact Or.inl (Or.inl ⟨5, rfl⟩)
  · obtain rfl := List.mem_singleton.mp hp
    exact Or.inr ⟨rfl, [loadPhi], .emit (some 3), [.emit none, .rewrite 3 12], rfl, rfl, by simp⟩

/-- The PHI follows a single rewrite. -/
theorem castOnce_phi_current : ∃ t, run loopKinds noValues castOnce = some t ∧
    ∀ phi ∈ t.rewritePhis.phis, ∀ i ∈ phi.incoming,
      t.valueMap i.value = some i.id ∧ i.id ∈ t.emitted := by
  refine ⟨_, rfl, ?_⟩
  have hmade : MadeEmitted loopKinds noValues := by
    intro v _ x hx
    cases hx
  have hphis : PhisAreInstructions loopKinds castOnce := by
    intro registered skip bb phi hmem
    simp only [castOnce, loadPhi, List.mem_cons, reduceCtorEq, List.not_mem_nil, or_false,
      Step.phi.injEq] at hmem
    rw [hmem.2.2.2]
    exact ValueKind.noConfusion
  exact (convertFunction_phis rfl hmade rfl).2 castOnce_keeps castOnce_emits hphis castOnce_incoming

end DxilSpirv.Converter
