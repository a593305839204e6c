import DxilSpirv.Nvapi.Operations
import Mathlib.Data.List.Induction

/-!
# The stores of an operation

Each store of an argument is followed by an attempt to commit. The machine after some stores is
known up to what the commits before have left.
-/

namespace DxilSpirv.Nvapi

variable {store : ArgumentStore} {inputs inputs' : Arguments} {k : Nat}

/-- The arguments after the first components of a store. -/
def ArgumentStore.applyBelow (store : ArgumentStore) (k : Nat) (inputs : Arguments) : Arguments :=
  fun slot =>
  if store.slot ≤ slot ∧ slot < store.slot + k ∧ store.mask.testBit (slot - store.slot) then
    some (store.values (slot - store.slot))
  else inputs slot

/-- Below the first argument nothing is stored. -/
theorem applyBelow_zero : store.applyBelow 0 inputs = inputs := by
  funext slot
  rw [ArgumentStore.applyBelow, if_neg (by omega)]

/-- A component that is not in the mask changes nothing. -/
theorem applyBelow_succ_of_not (h : store.mask.testBit k = false) :
    store.applyBelow (k + 1) inputs = store.applyBelow k inputs := by
  funext slot
  unfold ArgumentStore.applyBelow
  by_cases hslot : slot = store.slot + k
  · rw [if_neg (by simp [hslot, h]), if_neg (by omega)]
  · simp only [show slot < store.slot + (k + 1) ↔ slot < store.slot + k by omega]

/-- A component in the mask is stored in its slot. -/
theorem applyBelow_succ (h : store.mask.testBit k = true) :
    store.applyBelow (k + 1) inputs =
      Function.update (store.applyBelow k inputs) (store.slot + k) (some (store.values k)) := by
  funext slot
  unfold ArgumentStore.applyBelow
  by_cases hslot : slot = store.slot + k
  · rw [hslot, Function.update_self, if_pos (by simp [h]), Nat.add_sub_cancel_left]
  · rw [Function.update_of_ne hslot]
    simp only [show slot < store.slot + (k + 1) ↔ slot < store.slot + k by omega]

/-- One component of the loop, with the mask as a constant of 32 bits. -/
theorem writeInput_applyBelow (hk : k < 32) :
    writeInput store.values (store.mask % 2 ^ 32) store.slot (store.applyBelow k inputs) k =
      if store.mask.testBit k → store.slot + k < argumentCount
        then .ok (store.applyBelow (k + 1) inputs)
      else .error .outOfRange := by
  rw [writeInput, Nat.testBit_mod_two_pow, decide_eq_true hk, Bool.true_and]
  cases h : store.mask.testBit k with
  | false => simp [applyBelow_succ_of_not h]
  | true => simp [applyBelow_succ h]

/-- A store in range leaves its components. -/
theorem writeInputs_eq (h : store.InRange) :
    writeInputs store.values (store.mask % 2 ^ 32) store.slot inputs =
      .ok (store.apply inputs) := by
  have hstep (k : Nat) (hk : k < 4) :
      writeInput store.values (store.mask % 2 ^ 32) store.slot (store.applyBelow k inputs) k =
        .ok (store.applyBelow (k + 1) inputs) := by
    rw [writeInput_applyBelow (by omega), if_pos (h k hk)]
  rw [← @applyBelow_zero store inputs, writeInputs, hstep 0 (by omega)]
  simp only [hstep 1 (by omega), hstep 2 (by omega), hstep 3 (by omega), applyBelow_zero]
  rfl

/-- A component that does not stop the loop is in range. -/
theorem writeInput_eq_ok (hk : k < 32)
    (h : writeInput store.values (store.mask % 2 ^ 32) store.slot (store.applyBelow k inputs) k =
      .ok inputs') :
    (store.mask.testBit k → store.slot + k < argumentCount) ∧
      inputs' = store.applyBelow (k + 1) inputs := by
  rw [writeInput_applyBelow hk] at h
  split_ifs at h with hrange
  exact ⟨hrange, (Except.ok.inj h).symm⟩

/-- A store that does not stop is in range. -/
theorem inRange_of_writeInputs
    (h : writeInputs store.values (store.mask % 2 ^ 32) store.slot inputs = .ok inputs') :
    store.InRange := by
  rw [← @applyBelow_zero store inputs, writeInputs] at h
  split at h
  · cases h
  rename_i hwrite
  obtain ⟨hzero, rfl⟩ := writeInput_eq_ok (by omega) hwrite
  split at h
  · cases h
  rename_i hwrite
  obtain ⟨hone, rfl⟩ := writeInput_eq_ok (by omega) hwrite
  split at h
  · cases h
  rename_i hwrite
  obtain ⟨htwo, rfl⟩ := writeInput_eq_ok (by omega) hwrite
  obtain ⟨hthree, rfl⟩ := writeInput_eq_ok (by omega) h
  intro i hi
  have hcases : i = 0 ∨ i = 1 ∨ i = 2 ∨ i = 3 := by omega
  rcases hcases with rfl | rfl | rfl | rfl <;> assumption

variable {env : Env} {c c' : Converter} {d : Nat}

/-- The machine with other arguments. -/
def Converter.withInputs (c : Converter) (inputs : Arguments) : Converter :=
  { c with nvapi := { c.nvapi with fakeDoorbellInputs := inputs } }

@[simp] theorem withInputs_inputs {inputs : Arguments} :
    (c.withInputs inputs).nvapi.fakeDoorbellInputs = inputs := rfl

@[simp] theorem withInputs_markedUav {inputs : Arguments} :
    (c.withInputs inputs).nvapi.markedUav = c.nvapi.markedUav := rfl

/-- The machine that expects the outputs of an opcode. -/
def Converter.expecting (c : Converter) (op : NVExtnOp) : Converter :=
  { c with nvapi := { c.nvapi with numExpectedClockOutputs := numExpectedClockOutputs op } }

/-- The machine that waits for a call. -/
def Converter.waiting (c : Converter) (op : NVExtnOp) : Converter :=
  { c with nvapi := { c.nvapi with deferredOpcode := some op } }

/-- What emission does after a store, by what can be done with the arguments. -/
def Converter.committed (c : Converter) : Commit → Except Abort Converter
  | .incomplete => .ok c
  | .deferred op => .ok ((c.expecting op).waiting op)
  | .emitted op emission outputs => .ok ((c.expecting op).emit emission outputs)
  | .refused op => .ok (c.expecting op)
  | .nullValue => .error .nullValue

/-- What analysis does after a store that does not stop emission. -/
def Converter.analysed (c : Converter) : Commit → Converter
  | .incomplete | .nullValue => c
  | .deferred op => (c.expecting op).waiting op
  | .emitted op _ _ | .refused op => c.expecting op

/-- A commit leaves the rest of the machine alone. -/
theorem committed_frame {k : Commit} (h : c.committed k = .ok c') :
    c'.nvapi.doorbell = c.nvapi.doorbell ∧
      c'.nvapi.fakeDoorbellInputs = c.nvapi.fakeDoorbellInputs ∧
      c'.nvapi.markedUav = c.nvapi.markedUav ∧
      c'.nvapi.fakeDoorbellIntermediates = c.nvapi.fakeDoorbellIntermediates ∧
      c'.nvapi.clockOutputIndex = c.nvapi.clockOutputIndex ∧ c'.rewritten = c.rewritten := by
  cases k <;> cases h <;> exact ⟨rfl, rfl, rfl, rfl, rfl, rfl⟩

/-- A commit emits what can be emitted. -/
theorem committed_emitted {k : Commit} (h : c.committed k = .ok c') :
    c'.emitted = c.emitted ++ k.emissions := by
  cases k <;> cases h <;> first | rfl | exact (List.append_nil _).symm

/-- A commit emits nothing when its emissions are empty. -/
theorem isEmitted_eq_false {k : Commit} : k.isEmitted = false ↔ k.emissions = [] := by
  simp [Commit.isEmitted]

/-- Outputs are left by emission only. -/
theorem committed_outputs {k : Commit} (h : c.committed k = .ok c') (hk : k.isEmitted = false) :
    c'.nvapi.fakeDoorbellOutputs = c.nvapi.fakeDoorbellOutputs := by
  cases k <;> cases h <;> first | rfl | cases hk

/-- A commit waits for a call when it is deferred, and never ends a wait. -/
theorem committed_deferred {k : Commit} (h : c.committed k = .ok c') :
    c'.nvapi.deferredOpcode = none ↔ c.nvapi.deferredOpcode = none ∧ k.isDeferred = false := by
  cases k with
  | deferred op =>
    cases h
    simp [Commit.isDeferred, Converter.waiting]
  | nullValue => cases h
  | _ =>
    cases h
    exact ⟨fun h => ⟨h, rfl⟩, And.left⟩

/-- In the emission pass the commit emits. -/
theorem commitArguments_emission :
    c.commitArguments env false =
      c.committed (commit env c.nvapi.markedUav c.nvapi.fakeDoorbellInputs) := by
  unfold Converter.commitArguments Converter.commitOpcode commit
  split
  · cases hop : opcode c.nvapi.fakeDoorbellInputs with
    | none => rfl
    | some op =>
      simp only
      cases hemit : emitter env c.nvapi.fakeDoorbellInputs c.nvapi.markedUav op with
      | none => rfl
      | some outcome => cases outcome <;> rfl
  · rfl

/-- In the analysis pass the commit only counts. -/
theorem commitArguments_analysis
    (h : commit env c.nvapi.markedUav c.nvapi.fakeDoorbellInputs ≠ .nullValue) :
    c.commitArguments env true =
      .ok (c.analysed (commit env c.nvapi.markedUav c.nvapi.fakeDoorbellInputs)) := by
  unfold commit at h ⊢
  unfold Converter.commitArguments Converter.commitOpcode
  by_cases hcan : canCommitOpcode c.nvapi.fakeDoorbellInputs c.nvapi.markedUav
  · rw [if_pos hcan] at h
    rw [if_pos hcan, if_pos hcan]
    cases hop : opcode c.nvapi.fakeDoorbellInputs with
    | none => rfl
    | some op =>
      simp only
      cases hemit : emitter env c.nvapi.fakeDoorbellInputs c.nvapi.markedUav op with
      | none => rfl
      | some outcome =>
        cases outcome with
        | emitted emission outputs => rfl
        | refused => rfl
        | nullValue => simp [hop, hemit] at h
  · rw [if_neg hcan, if_neg hcan]
    rfl

/-- Which instruction is the doorbell. -/
theorem isDoorbell_iff {id : Nat} (hd : c.nvapi.doorbell = some d) :
    c.isDoorbell (.instruction id) ↔ d = id := by
  simp [Converter.isDoorbell, hd]

/-- A store of an argument, as both passes see it once it is taken for one. -/
theorem writeArgumentsFromStore_eq {analysis : Bool} {s : Store} (hs : store.event d = .store s) :
    c.writeArgumentsFromStore env s analysis =
      match writeInputs store.values
        (store.mask % 2 ^ 32) store.slot c.nvapi.fakeDoorbellInputs with
      | .error abort => .error abort
      | .ok inputs =>
        match (c.withInputs inputs).commitArguments env analysis with
        | .error abort => .error abort
        | .ok c => .ok (true, c) := by
  obtain rfl := Event.store.inj hs
  have hslot := store.slot_lt
  have hlt : 4 * store.slot < 2 ^ 32 := by
    unfold argumentCount at hslot
    omega
  simp only [Converter.writeArgumentsFromStore, getConstantOperand, Nat.mod_eq_of_lt hlt]
  rw [if_neg (by omega), if_neg (by omega), Nat.mul_div_cancel_left _ (by omega)]
  rfl

/-- Emission of a store of an argument. -/
theorem emitInstruction_store (hd : c.nvapi.doorbell = some d) (h : store.InRange) :
    emitInstruction env c (store.event d) =
      (c.withInputs (store.apply c.nvapi.fakeDoorbellInputs)).committed
        (commit env c.nvapi.markedUav (store.apply c.nvapi.fakeDoorbellInputs)) := by
  simp only [emitInstruction, ArgumentStore.event, Converter.emitNvapiBufferStore]
  rw [if_pos ((isDoorbell_iff hd).mpr rfl), if_pos trivial, writeArgumentsFromStore_eq rfl,
    writeInputs_eq h]
  simp only [commitArguments_emission, withInputs_inputs, withInputs_markedUav]
  cases (c.withInputs (store.apply c.nvapi.fakeDoorbellInputs)).committed
      (commit env c.nvapi.markedUav (store.apply c.nvapi.fakeDoorbellInputs)) <;> rfl

/-- A store that does not stop emission is in range. -/
theorem inRange_of_emitInstruction (hd : c.nvapi.doorbell = some d)
    (h : emitInstruction env c (store.event d) = .ok c') : store.InRange := by
  simp only [emitInstruction, ArgumentStore.event, Converter.emitNvapiBufferStore] at h
  rw [if_pos ((isDoorbell_iff hd).mpr rfl), if_pos trivial, writeArgumentsFromStore_eq rfl] at h
  cases hwrite : writeInputs store.values
      (store.mask % 2 ^ 32) store.slot c.nvapi.fakeDoorbellInputs with
  | error abort =>
    rw [hwrite] at h
    cases h
  | ok inputs => exact inRange_of_writeInputs hwrite

variable {m : Option Handle} {stores : List ArgumentStore} {p : Commit → Prop}

/-- After each store, what can be done with the arguments has a property. -/
def Throughout (env : Env) (m : Option Handle) (stores : List ArgumentStore) (p : Commit → Prop) :
    Prop :=
  ∀ first, first <+: stores → p (commit env m (storedArguments first))

/-- Without arguments nothing can be done. -/
theorem commit_nil : commit env m (storedArguments []) = .incomplete := rfl

/-- What holds throughout no events holds at the start. -/
theorem throughout_nil : Throughout env m [] p ↔ p .incomplete := by
  constructor
  · exact fun h => h [] List.prefix_rfl
  · rintro h first hfirst
    rw [List.prefix_nil.mp hfirst, commit_nil]
    exact h

/-- One more store adds what can be done after it. -/
theorem throughout_concat : Throughout env m (stores ++ [store]) p ↔
    Throughout env m stores p ∧ p (commit env m (storedArguments (stores ++ [store]))) := by
  constructor
  · exact fun h => ⟨fun first hfirst => h first (hfirst.trans (List.prefix_append ..)),
      h _ List.prefix_rfl⟩
  · rintro ⟨hfirsts, hlast⟩ first hfirst
    rcases List.prefix_concat_iff.mp hfirst with rfl | hfirst
    · exact hlast
    · exact hfirsts first hfirst

/-- What holds before the last store holds throughout the stores before it. -/
theorem throughout_iff_before_last : Throughout env m stores p ↔
    ∀ first, first <+: stores ++ [store] → first ≠ stores ++ [store] →
      p (commit env m (storedArguments first)) := by
  constructor
  · rintro h first hfirst hne
    exact h first ((List.prefix_concat_iff.mp hfirst).resolve_left hne)
  · rintro h first hfirst
    refine h first (hfirst.trans (List.prefix_append ..)) ?_
    rintro rfl
    have := hfirst.length_le
    simp only [List.length_append, List.length_singleton] at this
    omega

/-- The last store is applied to what the others stored. -/
theorem storedArguments_concat :
    storedArguments (stores ++ [store]) = store.apply (storedArguments stores) := by
  rw [storedArguments, List.foldl_append]
  rfl

variable {c₀ : Converter}

/-- The machine after some stores of an operation: it knows what is stored, and it has emitted
something or waits for a call exactly when some arguments on the way let it. -/
structure Storing (env : Env) (m : Option Handle) (d : Nat) (c₀ : Converter)
    (stores : List ArgumentStore) (c : Converter) : Prop where
  doorbell : c.nvapi.doorbell = some d
  inputs : c.nvapi.fakeDoorbellInputs = storedArguments stores
  markedUav : c.nvapi.markedUav = m
  intermediates : c.nvapi.fakeDoorbellIntermediates = fun _ => none
  index : c.nvapi.clockOutputIndex = 0
  rewritten : c.rewritten = c₀.rewritten
  emitted : ∃ l, c.emitted = c₀.emitted ++ l ∧
    (l = [] ↔ Throughout env m stores (·.isEmitted = false))
  outputs : Throughout env m stores (·.isEmitted = false) →
    c.nvapi.fakeDoorbellOutputs = fun _ => none
  deferred : c.nvapi.deferredOpcode = none ↔ Throughout env m stores (·.isDeferred = false)

/-- The doorbell begins an operation without arguments. -/
theorem storing_nil (h : c.nvapi = { NVAPIState.start m with doorbell := some d }) :
    Storing env m d c [] c where
  doorbell := by rw [h]
  inputs := by rw [h]; rfl
  markedUav := by rw [h]; rfl
  intermediates := by rw [h]; rfl
  index := by rw [h]; rfl
  rewritten := rfl
  emitted := ⟨[], (List.append_nil _).symm, by
    rw [throughout_nil]
    exact ⟨fun _ => rfl, fun _ => rfl⟩⟩
  outputs := fun _ => by rw [h]; rfl
  deferred := by
    rw [h, throughout_nil]
    exact ⟨fun _ => rfl, fun _ => rfl⟩

/-- One more store that does not stop emission. -/
theorem Storing.concat (hs : Storing env m d c₀ stores c)
    (h : (c.withInputs (storedArguments (stores ++ [store]))).committed
      (commit env m (storedArguments (stores ++ [store]))) = .ok c') :
    Storing env m d c₀ (stores ++ [store]) c' := by
  obtain ⟨l, hl, hempty⟩ := hs.emitted
  obtain ⟨hdoorbell, hinputs, hmarked, hintermediates, hindex, hrewritten⟩ := committed_frame h
  exact {
    doorbell := hdoorbell.trans hs.doorbell
    inputs := hinputs
    markedUav := hmarked.trans hs.markedUav
    intermediates := hintermediates.trans hs.intermediates
    index := hindex.trans hs.index
    rewritten := hrewritten.trans hs.rewritten
    emitted := by
      refine ⟨l ++ (commit env m (storedArguments (stores ++ [store]))).emissions, ?_, ?_⟩
      · rw [committed_emitted h, ← List.append_assoc, ← hl]
        rfl
      · rw [throughout_concat, ← hempty, List.append_eq_nil_iff, isEmitted_eq_false]
    outputs := fun hquiet => by
      obtain ⟨hbefore, hlast⟩ := throughout_concat.mp hquiet
      rw [committed_outputs h hlast]
      exact hs.outputs hbefore
    deferred := by
      rw [committed_deferred h, throughout_concat, ← hs.deferred]
      exact Iff.rfl }

/-- Emission of a store after others. -/
theorem Storing.emitInstruction_eq (hs : Storing env m d c₀ stores c) (h : store.InRange) :
    emitInstruction env c (store.event d) =
      (c.withInputs (storedArguments (stores ++ [store]))).committed
        (commit env m (storedArguments (stores ++ [store]))) := by
  rw [emitInstruction_store hs.doorbell h, hs.inputs, hs.markedUav, storedArguments_concat]

/-- Stores that are in range and never use a null pointer do not stop emission. -/
theorem exists_run_stores (hc : c.nvapi = { NVAPIState.start m with doorbell := some d })
    (hrange : ∀ store ∈ stores, store.InRange) (hnull : Throughout env m stores (· ≠ .nullValue)) :
    ∃ c', run (emitInstruction env) c (stores.map (ArgumentStore.event d)) = .ok c' ∧
      Storing env m d c stores c' := by
  induction stores using List.reverseRecOn with
  | nil => exact ⟨c, rfl, storing_nil hc⟩
  | append_singleton stores store ih =>
    obtain ⟨hbefore, hlast⟩ := throughout_concat.mp hnull
    obtain ⟨c₁, hrun, hs⟩ := ih (fun s hs => hrange s (List.mem_append_left _ hs)) hbefore
    have hemit := hs.emitInstruction_eq (hrange store (by simp))
    obtain ⟨c₂, hc₂⟩ : ∃ c₂, (c₁.withInputs (storedArguments (stores ++ [store]))).committed
        (commit env m (storedArguments (stores ++ [store]))) = .ok c₂ := by
      cases hcommit : commit env m (storedArguments (stores ++ [store])) with
      | nullValue => exact absurd hcommit hlast
      | _ => exact ⟨_, rfl⟩
    refine ⟨c₂, ?_, hs.concat hc₂⟩
    rw [List.map_append, List.map_singleton, run_append hrun, run_cons (hemit.trans hc₂), run_nil]

/-- Stores that do not stop emission are in range and never use a null pointer. -/
theorem storing_of_run (hc : c.nvapi = { NVAPIState.start m with doorbell := some d })
    (h : run (emitInstruction env) c (stores.map (ArgumentStore.event d)) = .ok c') :
    (∀ store ∈ stores, store.InRange) ∧ Throughout env m stores (· ≠ .nullValue) ∧
      Storing env m d c stores c' := by
  induction stores using List.reverseRecOn generalizing c' with
  | nil =>
    cases h
    exact ⟨by simp, throughout_nil.mpr (by simp), storing_nil hc⟩
  | append_singleton stores store ih =>
    rw [List.map_append, List.map_singleton, run_append_eq_ok] at h
    obtain ⟨c₁, hrun, hlast⟩ := h
    obtain ⟨c₂, hstep, hnil⟩ := run_cons_eq_ok.mp hlast
    cases hnil
    obtain ⟨hrange, hnull, hs⟩ := ih hrun
    have hin := inRange_of_emitInstruction hs.doorbell hstep
    rw [hs.emitInstruction_eq hin] at hstep
    refine ⟨?_, throughout_concat.mpr ⟨hnull, ?_⟩, hs.concat hstep⟩
    · simp only [List.mem_append, List.mem_singleton]
      rintro s (hmem | rfl)
      · exact hrange s hmem
      · exact hin
    · intro hcommit
      rw [hcommit] at hstep
      cases hstep

/-- The machine after the last store of an operation: what it was before, then one commit. -/
theorem exists_before_last (hc : c.nvapi = { NVAPIState.start m with doorbell := some d })
    (h : run (emitInstruction env) c (stores.map (ArgumentStore.event d)) = .ok c')
    (hne : stores ≠ []) :
    ∃ before last c₁, stores = before ++ [last] ∧ Storing env m d c before c₁ ∧
      (c₁.withInputs (storedArguments stores)).committed (commit env m (storedArguments stores)) =
          .ok c' := by
  obtain ⟨before, last, rfl⟩ := (List.eq_nil_or_concat' stores).resolve_left hne
  have hlast := (storing_of_run hc h).1 last (by simp)
  rw [List.map_append, List.map_singleton, run_append_eq_ok] at h
  obtain ⟨c₁, hrun, hstep⟩ := h
  obtain ⟨c₂, hstep, hnil⟩ := run_cons_eq_ok.mp hstep
  cases hnil
  obtain ⟨-, -, hs⟩ := storing_of_run hc hrun
  exact ⟨before, last, c₁, rfl, hs, hs.emitInstruction_eq hlast ▸ hstep⟩

end DxilSpirv.Nvapi
