import DxilSpirv.Nvapi.Served

/-!
# Blocks that are handled

Analysis follows emission as long as each store with the doorbell value is taken for the same thing
by both. A block is handled correctly exactly when its operations are regular and all their outputs
are fetched before the next doorbell.
-/

namespace DxilSpirv.Nvapi

variable {env : Env} {a c c' : Converter} {s t : NVAPIState}

/-- The states agree in all that both passes have. -/
structure Alike (s t : NVAPIState) : Prop where
  doorbell : s.doorbell = t.doorbell
  inputs : s.fakeDoorbellInputs = t.fakeDoorbellInputs
  intermediates : ∀ i, i ≠ intermediateAttributes →
    s.fakeDoorbellIntermediates i = t.fakeDoorbellIntermediates i
  markedUav : s.markedUav = t.markedUav
  deferredOpcode : s.deferredOpcode = t.deferredOpcode
  clockOutputIndex : s.clockOutputIndex = t.clockOutputIndex
  numExpectedClockOutputs : s.numExpectedClockOutputs = t.numExpectedClockOutputs

theorem shared_eq_shared : s.shared = t.shared ↔ Alike s t := by
  constructor
  · intro h
    unfold NVAPIState.shared at h
    injection h with hdoorbell hinputs hintermediates _ hmarked hdeferred hindex hcount
    refine ⟨hdoorbell, hinputs, fun i hi => ?_, hmarked, hdeferred, hindex, hcount⟩
    have := congrFun hintermediates i
    simpa [Function.update_of_ne hi] using this
  · intro h
    unfold NVAPIState.shared
    rw [h.doorbell, h.inputs, h.markedUav, h.deferredOpcode, h.clockOutputIndex,
      h.numExpectedClockOutputs]
    congr 1
    funext i
    by_cases hi : i = intermediateAttributes
    · rw [hi, Function.update_self, Function.update_self]
    · rw [Function.update_of_ne hi, Function.update_of_ne hi, h.intermediates i hi]

theorem Alike.refl (s : NVAPIState) : Alike s s := ⟨rfl, rfl, fun _ _ => rfl, rfl, rfl, rfl, rfl⟩

theorem Alike.reset (h : Alike s t) : Alike s.reset t.reset :=
  ⟨rfl, rfl, fun _ _ => rfl, h.markedUav, rfl, rfl, rfl⟩

theorem Alike.isDoorbell_iff (h : Alike a.nvapi c.nvapi) {index : Value} :
    a.isDoorbell index ↔ c.isDoorbell index := by
  rw [Converter.isDoorbell, Converter.isDoorbell, h.doorbell]

theorem Alike.getNvapiTraceHandle_eq (h : Alike a.nvapi c.nvapi) :
    a.getNvapiTraceHandle = c.getNvapiTraceHandle := by
  unfold Converter.getNvapiTraceHandle
  rw [h.deferredOpcode, h.intermediates _ (by decide), h.intermediates _ (by decide)]

/-- IncrementCounter. -/
theorem Alike.notifyDoorbell (h : Alike a.nvapi c.nvapi) {instruction : Nat}
    (hc : c.notifyDoorbell instruction false = .ok c') :
    ∃ a', a.notifyDoorbell instruction true = .ok a' ∧ Alike a'.nvapi c'.nvapi := by
  by_cases hzero : c.nvapi.numExpectedClockOutputs = 0
  · rw [Converter.notifyDoorbell, if_pos hzero] at hc
    obtain rfl := Except.ok.inj hc
    refine ⟨_, by rw [Converter.notifyDoorbell, if_pos (h.numExpectedClockOutputs.trans hzero)], ?_⟩
    exact { h.reset with doorbell := rfl }
  have hzero' : a.nvapi.numExpectedClockOutputs ≠ 0 := fun heq =>
    hzero (h.numExpectedClockOutputs ▸ heq)
  by_cases hindex : c.nvapi.clockOutputIndex < c.nvapi.numExpectedClockOutputs
  · have hindex' : a.nvapi.clockOutputIndex < a.nvapi.numExpectedClockOutputs := by
      rw [h.clockOutputIndex, h.numExpectedClockOutputs]
      exact hindex
    cases hop : c.nvapi.deferredOpcode with
    | none =>
      rw [notifyDoorbell_clocked hop hindex] at hc
      obtain rfl := Except.ok.inj hc
      refine ⟨_, notifyDoorbell_clocked (h.deferredOpcode.trans hop) hindex', ?_⟩
      have hadvance :
          Alike (a.advance instruction true).nvapi (c.advance instruction false).nvapi :=
        { h with clockOutputIndex := congrArg (· + 1) h.clockOutputIndex }
      rw [h.clockOutputIndex, h.numExpectedClockOutputs]
      split_ifs
      · exact hadvance.reset
      · exact hadvance
    | some op =>
      by_cases hcount : c.nvapi.clockOutputIndex < intermediateCount
      · rw [notifyDoorbell_waiting hop hindex hcount] at hc
        obtain rfl := Except.ok.inj hc
        refine ⟨_, notifyDoorbell_waiting (h.deferredOpcode.trans hop) hindex' (h.clockOutputIndex ▸
          hcount), ?_⟩
        refine { h with clockOutputIndex := congrArg (· + 1) h.clockOutputIndex, intermediates :=
          fun i hi => ?_ }
        simp only [Converter.hold, h.clockOutputIndex, Function.update_apply, h.intermediates i hi]
      · have hclock : c.clockOutput instruction false = .error .outOfRange := by
          unfold Converter.clockOutput
          simp only [hop, if_neg hcount]
        rw [Converter.notifyDoorbell, if_neg hzero, if_pos hindex, hclock] at hc
        cases hc
  · have hindex' : ¬ a.nvapi.clockOutputIndex < a.nvapi.numExpectedClockOutputs := by
      rw [h.clockOutputIndex, h.numExpectedClockOutputs]
      exact hindex
    rw [Converter.notifyDoorbell, if_neg hzero, if_neg hindex] at hc
    rw [Converter.notifyDoorbell, if_neg hzero', if_neg hindex']
    simp only [h.clockOutputIndex, h.numExpectedClockOutputs, h.deferredOpcode] at hc ⊢
    split_ifs at hc ⊢
    · obtain rfl := Except.ok.inj hc
      exact ⟨_, rfl, h.reset⟩
    · obtain rfl := Except.ok.inj hc
      exact ⟨_, rfl, h⟩

/-- The machine after a commit, as analysis and emission leave it. -/
theorem Alike.committed (h : Alike a.nvapi c.nvapi) {k : Commit} (hc : c.committed k = .ok c') :
    Alike (a.analysed k).nvapi c'.nvapi := by
  cases k with
  | incomplete =>
    obtain rfl := Except.ok.inj hc
    exact h
  | deferred op =>
    obtain rfl := Except.ok.inj hc
    exact { h with deferredOpcode := rfl, numExpectedClockOutputs := rfl }
  | emitted op emission outputs =>
    obtain rfl := Except.ok.inj hc
    exact { h with numExpectedClockOutputs := rfl }
  | refused op =>
    obtain rfl := Except.ok.inj hc
    exact { h with numExpectedClockOutputs := rfl }
  | nullValue => cases hc

/-- A store that both passes take for one of arguments. -/
theorem Alike.writeArgumentsFromStore (h : Alike a.nvapi c.nvapi) {store : Store}
    {result : Bool × Converter} (hc : c.writeArgumentsFromStore env store false = .ok result) :
    ∃ result', a.writeArgumentsFromStore env store true = .ok result' ∧
      Alike result'.2.nvapi result.2.nvapi := by
  unfold Converter.writeArgumentsFromStore at hc ⊢
  cases hoffset : getConstantOperand store.offset with
  | none =>
    rw [hoffset] at hc
    obtain rfl := Except.ok.inj hc
    exact ⟨_, rfl, h⟩
  | some offset =>
    cases hmask : getConstantOperand store.mask with
    | none =>
      rw [hoffset, hmask] at hc
      obtain rfl := Except.ok.inj hc
      exact ⟨_, rfl, h⟩
    | some mask =>
      simp only [hoffset, hmask] at hc ⊢
      split_ifs at hc ⊢
      · obtain rfl := Except.ok.inj hc
        exact ⟨_, rfl, h⟩
      · obtain rfl := Except.ok.inj hc
        exact ⟨_, rfl, h⟩
      · rw [h.inputs]
        cases hinputs : writeInputs store.values mask (offset / 4) c.nvapi.fakeDoorbellInputs with
        | error abort =>
          rw [hinputs] at hc
          cases hc
        | ok inputs =>
          simp only [hinputs] at hc ⊢
          have hwith : Alike (a.withInputs inputs).nvapi (c.withInputs inputs).nvapi :=
            { h with inputs := rfl }
          have hemission : Converter.commitArguments env
              { c with nvapi := { c.nvapi with fakeDoorbellInputs := inputs } } false =
                (c.withInputs inputs).committed (commit env c.nvapi.markedUav inputs) :=
                  commitArguments_emission
          rw [hemission] at hc
          cases hcommitted : (c.withInputs inputs).committed
              (commit env c.nvapi.markedUav inputs) with
          | error abort =>
            rw [hcommitted] at hc
            cases hc
          | ok c₁ =>
            rw [hcommitted] at hc
            obtain rfl := Except.ok.inj hc
            have hnull : commit env (a.withInputs inputs).nvapi.markedUav inputs ≠ .nullValue := by
              intro hnull
              rw [hwith.markedUav] at hnull
              change commit env c.nvapi.markedUav inputs = .nullValue at hnull
              rw [hnull] at hcommitted
              cases hcommitted
            have hanalysis : Converter.commitArguments env
                { a with nvapi := { a.nvapi with fakeDoorbellInputs := inputs } } true =
                  .ok ((a.withInputs inputs).analysed (commit env a.nvapi.markedUav inputs)) :=
              commitArguments_analysis hnull
            rw [hanalysis, h.markedUav]
            exact ⟨_, rfl, hwith.committed hcommitted⟩

/-- Both passes take a store with the doorbell value for the same thing: one to the magic UAV stores
arguments, one to another UAV marks it. -/
def Fits (c : Converter) : Event → Prop
  | .store store => c.isDoorbell store.index →
    (store.handle = .magic ↔ c.nvapi.fakeDoorbellInputs argumentMarkUavRef ≠ some (.constant 1))
  | _ => True

/-- A store that fits. -/
theorem Alike.store (h : Alike a.nvapi c.nvapi) {store : Store} (hfits : Fits c (.store store))
    (hc : emitInstruction env c (.store store) = .ok c') :
    ∃ a', analyzeInstruction env a (.store store) = .ok a' ∧ Alike a'.nvapi c'.nvapi := by
  rw [emitInstruction, Converter.emitNvapiBufferStore] at hc
  rw [analyzeInstruction, Converter.analyzeNvapiBufferStore]
  by_cases hdoorbell : c.isDoorbell store.index
  · rw [if_pos hdoorbell] at hc
    rw [if_pos (h.isDoorbell_iff.mpr hdoorbell), Converter.markUavWrite, h.inputs]
    by_cases hmagic : store.handle = .magic
    · rw [if_pos hmagic] at hc
      rw [if_neg ((hfits hdoorbell).mp hmagic)]
      cases hwrite : c.writeArgumentsFromStore env store false with
      | error abort =>
        rw [hwrite] at hc
        cases hc
      | ok result =>
        rw [hwrite] at hc
        obtain rfl := Except.ok.inj hc
        obtain ⟨result', hresult', halike⟩ := h.writeArgumentsFromStore hwrite
        simp only [hresult']
        exact ⟨_, rfl, halike⟩
    · have hmark : c.nvapi.fakeDoorbellInputs argumentMarkUavRef = some (.constant 1) :=
        not_not.mp fun hne => hmagic ((hfits hdoorbell).mpr hne)
      rw [if_neg hmagic, Converter.markUavWrite, if_pos hmark] at hc
      obtain rfl := Except.ok.inj hc
      rw [if_pos hmark]
      exact ⟨_, rfl, { h.reset with markedUav := rfl }⟩
  · rw [if_neg hdoorbell] at hc
    obtain rfl := Except.ok.inj hc
    rw [if_neg fun hd => hdoorbell (h.isDoorbell_iff.mp hd)]
    exact ⟨_, rfl, h⟩

/-- What analysis does at a call, by what the call does for the deferred operation. -/
def Converter.calledAnalysis (c : Converter) : CallEffect → Converter
  | .other | .attributes _ => c
  | .completes _ => c.reset

/-- A call in analysis, while an operation waits for one. -/
theorem analyzeInstruction_call {call : Call} {op : NVExtnOp} {inputs : Arguments}
    {attributes : Option Value} (hop : c.nvapi.deferredOpcode = some op) :
    analyzeInstruction env c (.call call) =
      .ok (if c.getNvapiTraceHandle = some call.handle then
        c.calledAnalysis (callEffect op inputs attributes call) else c) := by
  cases call with
  | callShader handle data =>
    change _ = Except.ok (if c.getNvapiTraceHandle = some handle then _ else _)
    rw [analyzeInstruction, Converter.analyzeNvapiCallShader, hop]
    split_ifs
    · cases op <;> rfl
    · rfl
  | traceRay handle payload ray =>
    change _ = Except.ok (if c.getNvapiTraceHandle = some handle then _ else _)
    rw [analyzeInstruction, Converter.analyzeNvapiTraceRay, hop]
    split_ifs
    · cases op <;> rfl
    · rfl

/-- An emitter that waits for a call never refuses. -/
theorem callEffect_ne_refused {call : Call} {op : NVExtnOp} {inputs : Arguments}
    {attributes : Option Value} :
    callEffect op inputs attributes call ≠ .completes .refused := by
  cases call <;> cases op <;>
    simp only [callEffect, emitHitObjectGetAttributes, emitHitObjectTraceRay,
    emitHitObjectInvoke, emitHitObjectMakeHit, emitCall, ne_eq, CallEffect.completes.injEq,
      reduceCtorEq,
    not_false_eq_true]
  all_goals
    intro h
    split at h <;> cases h

/-- A call. -/
theorem Alike.call (h : Alike a.nvapi c.nvapi) {call : Call}
    (hc : emitInstruction env c (.call call) = .ok c') :
    ∃ a', analyzeInstruction env a (.call call) = .ok a' ∧ Alike a'.nvapi c'.nvapi := by
  cases hop : c.nvapi.deferredOpcode with
  | none =>
    rw [emitInstruction_call_none (getNvapiTraceHandle_of_none hop)] at hc
    obtain rfl := Except.ok.inj hc
    have hnone : a.getNvapiTraceHandle = none :=
      getNvapiTraceHandle_of_none (h.deferredOpcode.trans hop)
    exact ⟨a, (instruction_of_not_concerns (not_concerns_call hnone)).2, h⟩
  | some op =>
    rw [emitInstruction_call hop] at hc
    refine ⟨_, @analyzeInstruction_call env a call op c.nvapi.fakeDoorbellInputs
      (c.nvapi.fakeDoorbellIntermediates intermediateAttributes) (h.deferredOpcode.trans hop), ?_⟩
    rw [h.getNvapiTraceHandle_eq]
    split_ifs at hc ⊢
    · cases heffect : callEffect op c.nvapi.fakeDoorbellInputs
          (c.nvapi.fakeDoorbellIntermediates intermediateAttributes) call with
      | other =>
        rw [heffect] at hc
        obtain rfl := Except.ok.inj hc
        exact h
      | attributes data =>
        rw [heffect] at hc
        obtain rfl := Except.ok.inj hc
        refine { h with intermediates := fun i hi => ?_ }
        rw [Converter.withAttributes]
        simp only [Function.update_of_ne hi]
        exact h.intermediates i hi
      | completes outcome =>
        rw [heffect] at hc
        cases outcome with
        | emitted emission outputs =>
          obtain rfl := Except.ok.inj hc
          exact h.reset
        | refused => exact absurd heffect callEffect_ne_refused
        | nullValue => cases hc
    · obtain rfl := Except.ok.inj hc
      exact h

/-- Loads change no state. -/
theorem nvapi_emitNvapiBufferLoad (load : Load) :
    (c.emitNvapiBufferLoad load).2.nvapi = c.nvapi := by
  rcases emitNvapiBufferLoad_cases (c := c) load with h | ⟨id, -, h⟩
  · rw [h]
  · rw [h]
    rfl

/-- Analysis follows emission over an instruction that fits. -/
theorem Alike.step (h : Alike a.nvapi c.nvapi) {event : Event} (hfits : Fits c event)
    (hc : emitInstruction env c event = .ok c') :
    ∃ a', analyzeInstruction env a event = .ok a' ∧ Alike a'.nvapi c'.nvapi := by
  cases event with
  | updateCounter instruction handle =>
    rw [emitInstruction] at hc
    rw [analyzeInstruction]
    split_ifs at hc ⊢
    · exact h.notifyDoorbell hc
    · obtain rfl := Except.ok.inj hc
      exact ⟨_, rfl, h⟩
  | store store => exact h.store hfits hc
  | load load =>
    obtain rfl := Except.ok.inj hc
    exact ⟨a, rfl, (nvapi_emitNvapiBufferLoad load).symm ▸ h⟩
  | call call => exact h.call hc

section AllFit

variable {m : Option Handle} {events rest before after : List Event} {stores : List ArgumentStore}
  {o : Operation} {d : Nat}

/-- Every instruction that emission reaches fits. -/
def AllFit (env : Env) : Converter → List Event → Prop
  | _, [] => True
  | c, event :: events => Fits c event ∧ ∀ c', emitInstruction env c event = .ok c' →
      AllFit env c' events

/-- Where all instructions fit, analysis follows emission. -/
theorem AllFit.exists_analysis (h : AllFit env c (before ++ after)) (halike : Alike a.nvapi c.nvapi)
    (hrun : run (emitInstruction env) c before = .ok c') :
    ∃ a', run (analyzeInstruction env) a before = .ok a' ∧ Alike a'.nvapi c'.nvapi := by
  induction before generalizing a c with
  | nil =>
    obtain rfl := Except.ok.inj hrun
    exact ⟨a, rfl, halike⟩
  | cons event before ih =>
    obtain ⟨c₁, hstep, hrest⟩ := run_cons_eq_ok.mp hrun
    obtain ⟨a₁, hstep', halike'⟩ := halike.step h.1 hstep
    obtain ⟨a', hrun', hend⟩ := ih (h.2 c₁ hstep) halike' hrest
    exact ⟨a', (run_cons hstep').trans hrun', hend⟩

theorem allFit_append (h : AllFit env c events)
    (hrest : ∀ c', run (emitInstruction env) c events = .ok c' → AllFit env c' rest) :
    AllFit env c (events ++ rest) := by
  induction events generalizing c with
  | nil => exact hrest c rfl
  | cons event events ih =>
    refine ⟨h.1, fun c₁ hstep => ih (h.2 c₁ hstep) fun c' hrun => hrest c' ?_⟩
    rw [run_cons hstep, hrun]

/-- Instructions that fit in every state. -/
theorem allFit_of_forall (h : ∀ event ∈ events, ∀ c, Fits c event) : AllFit env c events := by
  induction events generalizing c with
  | nil => trivial
  | cons event events ih =>
    exact ⟨h event List.mem_cons_self c, fun _ _ => ih fun e he => h e (List.mem_cons_of_mem _ he)⟩

/-- Stores of arguments fit while no UAV is to be marked. -/
theorem allFit_stores (hc : c.nvapi = { NVAPIState.start m with doorbell := some d })
    (h : ∀ first, first <+: stores → first ≠ stores →
      storedArguments first argumentMarkUavRef ≠ some (.constant 1)) :
    AllFit env c (stores.map (ArgumentStore.event d)) := by
  induction stores using List.reverseRecOn with
  | nil => trivial
  | append_singleton stores store ih =>
    have hne {first : List ArgumentStore} (hfirst : first <+: stores) :
        first ≠ stores ++ [store] := by
      rintro rfl
      have := hfirst.length_le
      simp only [List.length_append, List.length_singleton] at this
      omega
    rw [List.map_append, List.map_singleton]
    refine allFit_append (ih fun first hfirst _ =>
      h first (hfirst.trans (List.prefix_append ..)) (hne hfirst)) ?_
    intro c' hrun
    obtain ⟨-, -, hs⟩ := storing_of_run hc hrun
    refine ⟨fun _ => iff_of_true rfl ?_, fun _ _ => trivial⟩
    rw [hs.inputs]
    exact h stores (List.prefix_append ..) (hne List.prefix_rfl)

/-- The instructions of a regular operation fit. -/
theorem Operation.Regular.allFit (h : o.Regular env m) (hidle : c.nvapi.numExpectedClockOutputs = 0)
    (hm : c.nvapi.markedUav = m) : AllFit env c o.events := by
  refine ⟨trivial, fun c₁ hdoorbell => ?_⟩
  rw [emitInstruction_doorbell hidle] at hdoorbell
  obtain rfl := Except.ok.inj hdoorbell
  have hbegin : (c.begin o.doorbell).nvapi =
      { NVAPIState.start m with doorbell := some o.doorbell } := by
    rw [Converter.begin, hm]
  refine allFit_append (allFit_stores hbegin h.stores.unmarked) fun c₂ hrun => ?_
  obtain ⟨-, -, hs⟩ := storing_of_run hbegin hrun
  cases hcase : o.body with
  | mark uav offset values mask =>
    have hanswered := h.answered
    rw [Operation.answer, hcase] at hanswered
    simp only at hanswered
    split_ifs at hanswered with hmark
    · refine ⟨fun _ => iff_of_false (fun heq => by cases heq) ?_, fun _ _ => trivial⟩
      rw [hs.inputs]
      exact not_not.mpr hmark
    · cases hanswered
  | outputs fetches calls =>
    refine allFit_of_forall fun event hevent c => ?_
    rcases List.mem_append.mp hevent with hfetch | hcall
    · obtain ⟨fetch, -, rfl⟩ := List.mem_map.mp hfetch
      cases fetch <;> trivial
    · obtain ⟨call, -, rfl⟩ := List.mem_map.mp hcall
      trivial

end AllFit

variable {m : Option Handle} {o : Operation} {ops before after : List Operation}

theorem events_cons : events (o :: ops) = o.events ++ events ops := rfl

theorem events_append : events (before ++ after) = events before ++ events after :=
  List.flatMap_append

/-- The first operation of a regular block, and the block after it. -/
theorem RegularBlock.of_cons (h : RegularBlock env m (o :: ops)) :
    o.Regular env m ∧ (ops ≠ [] → o.Drained) ∧ RegularBlock env (o.marks m) ops := by
  obtain ⟨hregular, hdrained⟩ := h [] o ops rfl
  refine ⟨hregular, hdrained, fun before o' after hops => ?_⟩
  exact h (o :: before) o' after (by rw [hops, List.cons_append])

/-- A regular operation leaves a machine that expects no output, if another operation follows. -/
theorem RegularBlock.idle_of_cons (h : RegularBlock env m (o :: ops)) (hops : ops ≠ [])
    (hidle : c.nvapi.numExpectedClockOutputs = 0) (hm : c.nvapi.markedUav = m)
    (hrun : run (emitInstruction env) c o.events = .ok c') :
    c'.nvapi.numExpectedClockOutputs = 0 ∧ c'.nvapi.markedUav = o.marks m := by
  obtain ⟨hregular, hdrained, -⟩ := h.of_cons
  obtain ⟨answer, c₁, -, hrun', -, -, hmarked, hmarks, hzero⟩ := hregular.run hidle hm
  obtain rfl := Except.ok.inj (hrun.symm.trans hrun')
  exact ⟨hzero.mpr (hdrained hops), hmarked.trans hmarks⟩

/-- The instructions of a regular block fit. -/
theorem RegularBlock.allFit (h : RegularBlock env m ops)
    (hidle : c.nvapi.numExpectedClockOutputs = 0) (hm : c.nvapi.markedUav = m) :
    AllFit env c (events ops) := by
  induction ops generalizing c m with
  | nil => trivial
  | cons o ops ih =>
    rw [events_cons]
    refine allFit_append (h.of_cons.1.allFit hidle hm) fun c₁ hrun => ?_
    by_cases hops : ops = []
    · subst hops
      trivial
    · obtain ⟨hidle₁, hm₁⟩ := h.idle_of_cons hops hidle hm hrun
      exact ih h.of_cons.2.2 hidle₁ hm₁

/-- Before each operation of a regular block no output is expected, and the UAV of the last mark is
marked. -/
theorem RegularBlock.idle (h : RegularBlock env m (before ++ o :: after))
    (hidle : c.nvapi.numExpectedClockOutputs = 0) (hm : c.nvapi.markedUav = m)
    (hrun : run (emitInstruction env) c (events before) = .ok c') :
    c'.nvapi.numExpectedClockOutputs = 0 ∧
      c'.nvapi.markedUav = before.foldl (fun uav o => o.marks uav) m := by
  induction before generalizing c m with
  | nil =>
    obtain rfl := Except.ok.inj hrun
    exact ⟨hidle, hm⟩
  | cons o' before ih =>
    rw [events_cons, run_append_eq_ok] at hrun
    obtain ⟨c₁, hfirst, hrest⟩ := hrun
    obtain ⟨hidle₁, hm₁⟩ := h.idle_of_cons (by simp) hidle hm hfirst
    exact ih h.of_cons.2.2 hidle₁ hm₁ hrest

/-- A regular operation is served by a machine that expects no output. -/
theorem Operation.Regular.served (h : o.Regular env m) (hidle : c.nvapi.numExpectedClockOutputs = 0)
    (hm : c.nvapi.markedUav = m) : Served env c o := by
  obtain ⟨answer, c', hanswer, hrun, hemitted, hrewritten, hmarked, -, -⟩ := h.run hidle hm
  subst hm
  refine ⟨⟨_, emitInstruction_doorbell hidle, rfl⟩, fun answer' hanswer' => ?_, fun hnone => ?_⟩
  · obtain rfl := Option.some.inj (hanswer.symm.trans hanswer')
    exact ⟨c', hrun, hemitted, hrewritten, hmarked⟩
  · rw [hanswer] at hnone
    cases hnone

/-- A regular block is handled correctly. -/
theorem RegularBlock.handled (h : RegularBlock env m ops) : Handled env m m ops where
  served := by
    rintro before o after rfl c hrun
    obtain ⟨hidle, hm⟩ := h.idle rfl rfl hrun
    exact (h before o after rfl).1.served hidle hm
  agrees := by
    intro before after hevents c hrun
    have hfit : AllFit env { nvapi := .start m } (events ops) := h.allFit rfl rfl
    rw [hevents] at hfit
    obtain ⟨a, hrun', halike⟩ := hfit.exists_analysis (Alike.refl _) hrun
    exact ⟨a, hrun', shared_eq_shared.mpr halike⟩

variable {m' : Option Handle} {answer : Answer}

/-- Only a mark changes the marked UAV. -/
theorem Operation.markedUav_of_answer (h : o.answer env m = some answer) :
    answer.markedUav = o.marks m := by
  unfold Operation.answer at h
  unfold Operation.marks
  cases hcase : o.body with
  | mark uav offset values mask =>
    rw [hcase] at h
    simp only at h
    split_ifs at h
    obtain rfl := Option.some.inj h
    rfl
  | outputs fetches calls =>
    rw [hcase] at h
    simp only at h
    split at h
    · split_ifs at h
      obtain rfl := Option.some.inj h
      rfl
    · split at h
      · cases h
      · obtain ⟨emission, -, rfl⟩ := Option.map_eq_some_iff.mp h
        rfl
    · cases h

/-- Emission of a block that is handled does not stop. -/
theorem Handled.exists_run (h : Handled env m' m ops) (hops : ops = before ++ after) :
    ∃ c, run (emitInstruction env) { nvapi := .start m } (events before) = .ok c ∧
      c.nvapi.markedUav = before.foldl (fun uav o => o.marks uav) m := by
  induction before using List.reverseRecOn generalizing after with
  | nil => exact ⟨_, rfl, rfl⟩
  | append_singleton before o ih =>
    rw [List.append_assoc, List.singleton_append] at hops
    obtain ⟨c, hrun, hm⟩ := ih hops
    have hserved := h.served before o after hops c hrun
    obtain ⟨answer, hanswer⟩ : ∃ answer, o.answer env c.nvapi.markedUav = some answer := by
      rw [← Option.ne_none_iff_exists']
      exact fun hnone => run_ne_failed (hserved.fails hnone)
    obtain ⟨c', hrun', -, -, hmarked⟩ := hserved.answered answer hanswer
    refine ⟨c', ?_, ?_⟩
    · rw [events_append, run_append hrun]
      simpa [events] using hrun'
    · rw [List.foldl_append, hmarked, Operation.markedUav_of_answer hanswer, hm]
      rfl

/-- Analysis marks a UAV at any store with the doorbell value when one is to be marked. -/
theorem analyzeInstruction_store_mark {store : ArgumentStore} {d : Nat}
    (hd : a.nvapi.doorbell = some d)
    (hmark : a.nvapi.fakeDoorbellInputs argumentMarkUavRef = some (.constant 1)) :
    analyzeInstruction env a (store.event d) =
      .ok { a with nvapi := { a.nvapi.reset with markedUav := some .magic } } := by
  simp only [analyzeInstruction, ArgumentStore.event, Converter.analyzeNvapiBufferStore]
  rw [if_pos ((isDoorbell_iff hd).mpr rfl), Converter.markUavWrite, if_pos hmark]

/-- In a block that is handled no UAV is to be marked before the last store of an operation:
analysis would take the next store for the mark. -/
theorem Handled.unmarked (h : Handled env m' m ops) (hops : ops = before ++ o :: after)
    {first : List ArgumentStore} (hfirst : first <+: o.stores) (hne : first ≠ o.stores) :
    storedArguments first argumentMarkUavRef ≠ some (.constant 1) := by
  intro hmark
  obtain ⟨rest, hrest⟩ := hfirst
  cases rest with
  | nil => exact hne (by rw [← hrest, List.append_nil])
  | cons store rest =>
    obtain ⟨c, hrun, hm⟩ := h.exists_run hops
    obtain ⟨c₀, hdoorbell, hfresh⟩ := (h.served before o after hops c hrun).fresh
    have hconcat : ops = (before ++ [o]) ++ after := by simp [hops]
    obtain ⟨c', hwhole, -⟩ := h.exists_run hconcat
    have hsplit : events (before ++ [o]) = (events before ++ .updateCounter o.doorbell .magic ::
        first.map (ArgumentStore.event o.doorbell)) ++ store.event o.doorbell ::
          (rest.map (ArgumentStore.event o.doorbell) ++ o.body.events o.doorbell) := by
      simp [events, Operation.events, ← hrest]
    rw [hsplit, run_append_eq_ok] at hwhole
    obtain ⟨c₁, hfirst, hlast⟩ := hwhole
    obtain ⟨c₂, hstore, -⟩ := run_cons_eq_ok.mp hlast
    have hfirst' := hfirst
    rw [run_append hrun, run_cons hdoorbell] at hfirst'
    obtain ⟨hrange, hnull, hs⟩ := storing_of_run hfresh hfirst'
    have hevents : events ops = (events before ++ .updateCounter o.doorbell .magic ::
        first.map (ArgumentStore.event o.doorbell)) ++ store.event o.doorbell ::
          (rest.map (ArgumentStore.event o.doorbell) ++ o.body.events o.doorbell ++
              events after) := by
      rw [hops, ← List.singleton_append, ← List.append_assoc, events_append, hsplit]
      simp
    -- Emission goes on with the operation, analysis has lost its doorbell.
    have hdoorbell₂ : c₂.nvapi.doorbell = some o.doorbell := by
      have hstore' := hstore
      rw [hs.emitInstruction_eq (inRange_of_emitInstruction hs.doorbell hstore)] at hstore'
      exact (hs.concat hstore').doorbell
    obtain ⟨a₁, hanalysis, hshared⟩ := h.agrees _ _ hevents c₁ hfirst
    have halike := shared_eq_shared.mp hshared
    have hstep := @analyzeInstruction_store_mark env a₁ store o.doorbell
      (halike.doorbell.trans hs.doorbell) (by rw [halike.inputs, hs.inputs, hmark])
    obtain ⟨a₂, hanalysis₂, hshared₂⟩ := h.agrees _ _ (hevents.trans (List.append_cons ..)) c₂ (by
      rw [run_append hfirst, run_cons hstore, run_nil])
    rw [run_append hanalysis, run_cons hstep, run_nil] at hanalysis₂
    obtain rfl := Except.ok.inj hanalysis₂
    have hlost := (shared_eq_shared.mp hshared₂).doorbell
    rw [hdoorbell₂] at hlost
    cases hlost

/-- Both passes come to a block that is handled with the same UAV marked. -/
theorem Handled.analysedUav_eq (h : Handled env m' m ops) : m' = m := by
  obtain ⟨a, hrun, hshared⟩ := h.agrees [] (events ops) rfl _ rfl
  obtain rfl := Except.ok.inj hrun
  exact (shared_eq_shared.mp hshared).markedUav

/-- A block that is handled is regular. -/
theorem Handled.regular (h : Handled env m' m ops) : RegularBlock env m ops := by
  intro before o after hops
  obtain ⟨c, hrun, hm⟩ := h.exists_run hops
  have hserved := h.served before o after hops c hrun
  have hregular := hserved.regular hm fun first hfirst hne => h.unmarked hops hfirst hne
  refine ⟨hregular, fun hafter => ?_⟩
  obtain ⟨o', after', rfl⟩ := List.exists_cons_of_ne_nil hafter
  obtain ⟨c₀, hdoorbell, hfresh⟩ := hserved.fresh
  obtain ⟨answer, c₁, -, hrun₁, -, -, -, -, hzero⟩ :=
    hregular.run (numExpectedClockOutputs_of_fresh hdoorbell hfresh) hm
  have hrun' : run (emitInstruction env) { nvapi := .start m } (events (before ++ [o])) =
      .ok c₁ := by
    rw [events_append, run_append hrun]
    simpa [events] using hrun₁
  obtain ⟨c₂, hdoorbell', hfresh'⟩ :=
    (h.served (before ++ [o]) o' after' (by simp [hops]) c₁ hrun').fresh
  exact hzero.mp (numExpectedClockOutputs_of_fresh hdoorbell' hfresh')

/-- A block of operations is handled correctly exactly when both passes come to it with the same UAV
marked and it is regular. -/
theorem handled_iff_regularBlock (env : Env) (analysedUav markedUav : Option Handle)
    (ops : List Operation) :
    Handled env analysedUav markedUav ops ↔
      analysedUav = markedUav ∧ RegularBlock env markedUav ops := by
  constructor
  · exact fun h => ⟨h.analysedUav_eq, h.regular⟩
  · rintro ⟨rfl, h⟩
    exact h.handled

/-- A store of one constant to all components of a mask. -/
def constantStore (slot mask n : Nat) (h : slot < argumentCount) : ArgumentStore :=
  ⟨slot, mask, fun _ => .constant n, h⟩

/-- All resources are storage buffers and no value is a call. -/
def bufferEnv : Env := ⟨fun _ => .storageBuffer, fun _ => false⟩

/-- GetSpecial of `NV_SPECIALOP_THREADLTMASK`, which its emitter refuses. -/
def threadLtMask : Operation where
  doorbell := 1
  stores :=
    [constantStore argumentOpcode 1 19 (by decide), constantStore argumentSrc0u 1 4 (by decide)]
  body := .outputs [.incrementCounter 2] []

/-- A shuffle with one more store after its arguments are complete. -/
def lateShuffle : Operation where
  doorbell := 1
  stores :=
    [constantStore argumentOpcode 1 1 (by decide), constantStore argumentSrc0u 7 5 (by decide),
    constantStore (argumentSrc0u + 3) 1 0 (by decide)]
  body := .outputs [.incrementCounter 2] []

/-- A timer with a store of two components to the last argument. -/
def wideTimer : Operation where
  doorbell := 1
  stores := [constantStore argumentNumOutputsForIncCounter 3 1 (by decide),
    constantStore argumentOpcode 1 19 (by decide), constantStore argumentSrc0u 1 9 (by decide)]
  body := .outputs [.incrementCounter 2] []

/-- The refused operation does not stop the conversion, the shuffle is emitted twice, and the wide
store is out of range. -/
theorem not_handled_single :
    ¬ Handled bufferEnv none none [threadLtMask] ∧ ¬ Handled bufferEnv none none [lateShuffle] ∧
      ¬ Handled bufferEnv none none [wideTimer] := by
  refine ⟨fun h => ?_, fun h => ?_, fun h => ?_⟩
  · have hfails := (h.served [] threadLtMask [] rfl _ rfl).fails (by decide)
    nomatch hfails
  · obtain ⟨c, hrun, hemitted, -⟩ := (h.served [] lateShuffle [] rfl _ rfl).answered _ rfl
    obtain rfl := Except.ok.inj hrun
    revert hemitted
    decide
  · obtain ⟨c, hrun, -⟩ := (h.served [] wideTimer [] rfl _ rfl).answered _ rfl
    nomatch hrun

end DxilSpirv.Nvapi
